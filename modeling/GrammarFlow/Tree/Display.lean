import GrammarFlow.Tree.Basic

namespace GrammarFlow.Tree

def label (t : Tree) : String :=
  t.symbolName ++ t.span.text ++
    (match t.lexeme with
      | some lexeme => ": '" ++ lexeme ++ "'"
      | none => "")

/-- What joins a node to the branch of its parent. -/
def connector (isLast : Bool) : String := if isLast then "└─ " else "├─ "

/-- What continues a branch past the lines below a node. -/
def continuation (isLast : Bool) : String := if isLast then "    " else "│   "

mutual

/-- The lines below a node whose children's lines begin with `lead`. -/
def linesBelow (lead : String) : Tree → List String
  | .node _ _ _ children => forestLines lead children

def forestLines (lead : String) : List Tree → List String
  | [] => []
  | t :: rest =>
    (lead ++ connector rest.isEmpty ++ t.label) ::
      (t.linesBelow (lead ++ continuation rest.isEmpty) ++ forestLines lead rest)

end

def lines (t : Tree) : List String := t.label :: t.linesBelow ""

def display (t : Tree) : String := "\n".intercalate t.lines

def nameJson : NodeName → Json.Value
  | .nonTerminal name => .object [("kind", .string "NonTerminal"), ("symbol", .string name)]
  | .terminal name => .object [("kind", .string "Terminal"), ("symbol", .string name)]

mutual

/-- Name and span, then the lexeme and the children where there are any. -/
def toValue : Tree → Json.Value
  | .node name span lexeme children =>
    .object ([("name", nameJson name), ("span", span.toJson)] ++
      (lexeme.map fun l => ("lexeme", Json.Value.string l)).toList ++
      (if children.isEmpty then [] else [("children", .array (forestValues children))]))

def forestValues : List Tree → List Json.Value
  | [] => []
  | t :: rest => t.toValue :: forestValues rest

end

def toJson (t : Tree) : String := t.toValue.pretty 0

end GrammarFlow.Tree
