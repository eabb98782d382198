import GrammarFlow.Tree.Basic

namespace GrammarFlow.Tree

mutual

/-- The nodes of a tree whose root is at the given depth, each before its children. -/
def nodesFrom : Tree → Nat → List (Nat × Tree)
  | .node name span lexeme children, depth =>
    (depth, .node name span lexeme children) :: forestNodesFrom children (depth + 1)

def forestNodesFrom : List Tree → Nat → List (Nat × Tree)
  | [], _ => []
  | t :: rest, depth => t.nodesFrom depth ++ forestNodesFrom rest depth

end

theorem nodesFrom_eq (t : Tree) (depth : Nat) :
    t.nodesFrom depth = (depth, t) :: forestNodesFrom t.children (depth + 1) := by
  cases t
  rw [nodesFrom, children]

theorem size_eq (t : Tree) : t.size = forestSize t.children + 1 := by
  cases t
  rw [size, children]

theorem forestNodesFrom_eq_flatMap (ts : List Tree) (depth : Nat) :
    forestNodesFrom ts depth = ts.flatMap (·.nodesFrom depth) := by
  induction ts with
  | nil => rw [forestNodesFrom, List.flatMap_nil]
  | cons t ts ih => rw [forestNodesFrom, ih, List.flatMap_cons]

/-- A visit takes one node off the forest, as the children of the node stay in its place. -/
theorem forestSize_visit (x : Nat × Tree) (rest : List (Nat × Tree)) :
    forestSize ((x.2.children.map (x.1 + 1, ·) ++ rest).map (·.2)) + 1 =
      forestSize ((x :: rest).map (·.2)) := by
  have hchildren : (x.2.children.map (x.1 + 1, ·)).map (·.2) = x.2.children := by
    rw [List.map_map]
    exact List.map_id _
  rw [List.map_append, hchildren, forestSize_append, List.map_cons, forestSize, size_eq]
  omega

/-- A visited node and what the forest yields then are what the forest has yielded before. -/
theorem flatMap_nodesFrom_visit (x : Nat × Tree) (rest : List (Nat × Tree)) :
    x :: (x.2.children.map (x.1 + 1, ·) ++ rest).flatMap (fun y => y.2.nodesFrom y.1) =
      (x :: rest).flatMap fun y => y.2.nodesFrom y.1 := by
  rw [List.flatMap_append, List.flatMap_map, List.flatMap_cons, nodesFrom_eq,
    forestNodesFrom_eq_flatMap, List.cons_append]

/-- With fuel for all the nodes, the trees to be visited give their nodes in turn. -/
theorem preorderFrom_eq {fuel : Nat} {work : List (Nat × Tree)}
    (hfuel : forestSize (work.map (·.2)) ≤ fuel) :
    preorderFrom fuel work = work.flatMap fun x => x.2.nodesFrom x.1 := by
  induction fuel generalizing work with
  | zero =>
    cases work with
    | nil => rfl
    | cons x rest =>
      have hvisit := forestSize_visit x rest
      omega
  | succ fuel ih =>
    cases work with
    | nil => rfl
    | cons x rest =>
      have hvisit := forestSize_visit x rest
      rw [preorderFrom, ih (by omega)]
      exact flatMap_nodesFrom_visit x rest

theorem preorder_eq (t : Tree) : t.preorder = t.nodesFrom 0 := by
  have hfuel : forestSize ([(0, t)].map (·.2)) ≤ t.size := by
    simp [forestSize]
  rw [preorder, preorderFrom_eq hfuel, List.flatMap_singleton]

mutual

theorem map_snd_nodesFrom : ∀ (t : Tree) (d e : Nat),
    (t.nodesFrom d).map (·.2) = (t.nodesFrom e).map (·.2)
  | .node name span lexeme children, d, e => by
    rw [nodesFrom, nodesFrom, List.map_cons, List.map_cons, map_snd_forestNodesFrom children]

theorem map_snd_forestNodesFrom : ∀ (ts : List Tree) (d e : Nat),
    (forestNodesFrom ts d).map (·.2) = (forestNodesFrom ts e).map (·.2)
  | [], _, _ => by rw [forestNodesFrom, forestNodesFrom]
  | t :: ts, d, e => by
    rw [forestNodesFrom, forestNodesFrom, List.map_append, List.map_append, map_snd_nodesFrom t d e,
      map_snd_forestNodesFrom ts d e]

end

def nodes (t : Tree) : List Tree := (t.nodesFrom 0).map (·.2)

theorem nodes_eq (t : Tree) : t.nodes = t :: t.children.flatMap nodes := by
  have hchildren : (forestNodesFrom t.children (0 + 1)).map (·.2) = t.children.flatMap nodes := by
    rw [map_snd_forestNodesFrom _ _ 0, forestNodesFrom_eq_flatMap, List.map_flatMap]
    rfl
  rw [nodes, nodesFrom_eq, List.map_cons, hchildren]

theorem leaves_eq (t : Tree) : t.leaves = t.nodes.filter (·.isTerminal) := by
  rw [leaves, preorder_eq, nodes]

theorem nodes_leaf (terminal lexeme : String) (span : Span) :
    (leaf terminal lexeme span).nodes = [leaf terminal lexeme span] := nodes_eq _

theorem leaves_leaf (terminal lexeme : String) (span : Span) :
    (leaf terminal lexeme span).leaves = [leaf terminal lexeme span] := by
  rw [leaves_eq, nodes_leaf]
  rfl

theorem leaves_branch (name : String) (span : Span) (children : List Tree) :
    (branch name span children).leaves = children.flatMap leaves := by
  have hroot : (branch name span children).isTerminal = false := rfl
  have hleaves : leaves = fun t => t.nodes.filter (·.isTerminal) := funext leaves_eq
  rw [leaves_eq, nodes_eq, List.filter_cons_of_neg (Bool.eq_false_iff.1 hroot), List.filter_flatMap,
    hleaves]
  rfl

end GrammarFlow.Tree
