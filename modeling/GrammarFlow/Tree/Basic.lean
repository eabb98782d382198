import GrammarFlow.Token

namespace GrammarFlow

/-- The name of a node, with the kind of symbol that it names. -/
inductive NodeName where
  | nonTerminal (name : String)
  | terminal (name : String)
deriving DecidableEq, Repr

def NodeName.text : NodeName → String
  | .nonTerminal name => name
  | .terminal name => name

inductive Tree where
  | node (name : NodeName) (span : Span) (lexeme : Option String) (children : List Tree)

namespace Tree

def branch (name : String) (span : Span) (children : List Tree) : Tree :=
  .node (.nonTerminal name) span none children

def leaf (terminal lexeme : String) (span : Span) : Tree :=
  .node (.terminal terminal) span (some lexeme) []

def name : Tree → NodeName
  | .node name _ _ _ => name

def span : Tree → Span
  | .node _ span _ _ => span

def lexeme : Tree → Option String
  | .node _ _ lexeme _ => lexeme

def children : Tree → List Tree
  | .node _ _ _ children => children

def symbolName (t : Tree) : String := t.name.text

def isTerminal (t : Tree) : Bool :=
  match t.name with
  | .terminal _ => true
  | .nonTerminal _ => false

mutual

def decEq : (s t : Tree) → Decidable (s = t)
  | .node n sp l cs, .node n' sp' l' cs' =>
    match decEqForest cs cs' with
    | isTrue hc =>
      if h : n = n' ∧ sp = sp' ∧ l = l' then isTrue (by rw [h.1, h.2.1, h.2.2, hc])
      else isFalse fun e => h (by cases e; exact ⟨rfl, rfl, rfl⟩)
    | isFalse hc => isFalse fun e => hc (by cases e; rfl)

def decEqForest : (ss ts : List Tree) → Decidable (ss = ts)
  | [], [] => isTrue rfl
  | [], _ :: _ => isFalse nofun
  | _ :: _, [] => isFalse nofun
  | s :: ss, t :: ts =>
    match decEq s t, decEqForest ss ts with
    | isTrue h, isTrue hs => isTrue (by rw [h, hs])
    | isFalse h, _ => isFalse fun e => h (List.cons.inj e).1
    | _, isFalse hs => isFalse fun e => hs (List.cons.inj e).2

end

instance : DecidableEq Tree := decEq

mutual

def size : Tree → Nat
  | .node _ _ _ children => forestSize children + 1

def forestSize : List Tree → Nat
  | [] => 0
  | t :: rest => t.size + forestSize rest

end

theorem forestSize_append (ss ts : List Tree) :
    forestSize (ss ++ ts) = forestSize ss + forestSize ts := by
  induction ss with
  | nil => simp [forestSize]
  | cons s ss ih => simp [forestSize, ih, Nat.add_assoc]

/-- The nodes of a forest with their depths, each before its children and these from left to right. -/
def preorderFrom : Nat → List (Nat × Tree) → List (Nat × Tree)
  | 0, _ => []
  | _, [] => []
  | fuel + 1, (depth, t) :: rest =>
    (depth, t) :: preorderFrom fuel (t.children.map (depth + 1, ·) ++ rest)

/-- The nodes in preorder with their depths, the root at depth 0. -/
def preorder (t : Tree) : List (Nat × Tree) := preorderFrom t.size [(0, t)]

def leaves (t : Tree) : List Tree := (t.preorder.map (·.2)).filter (·.isTerminal)

def lexemes (t : Tree) : List String := t.leaves.filterMap (·.lexeme)

end Tree

end GrammarFlow
