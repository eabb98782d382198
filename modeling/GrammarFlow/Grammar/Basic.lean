import GrammarFlow.NameTable

namespace GrammarFlow

inductive Symbol where
  | terminal (id : Nat)
  | nonTerminal (id : Nat)
deriving DecidableEq, Repr

namespace Symbol

def isTerminal : Symbol → Bool
  | .terminal _ => true
  | .nonTerminal _ => false

def isNonTerminal : Symbol → Bool
  | .terminal _ => false
  | .nonTerminal _ => true

end Symbol

/-- The rule `lhs -> rhs`, with its number. -/
structure Production where
  id : Nat
  lhs : Nat
  rhs : List Symbol
deriving DecidableEq, Repr

structure Grammar where
  name : String
  start : Nat
  terminals : NameTable
  nonTerminals : NameTable
  productions : Array Production
deriving DecidableEq

/-- The numbers of the productions of each non-terminal, in order of declaration. -/
def productionRows (size : Nat) (productions : Array Production) : Array (Array Nat) :=
  productions.foldl (fun rows p => rows.modify p.lhs (·.push p.id)) (Array.replicate size #[])

def productionLabel (id : Nat) : String := "#" ++ toString id

namespace Grammar

variable (g : Grammar)

def production? (id : Nat) : Option Production := g.productions[id]?

/-- The right-hand side of a production, empty for an unknown one. -/
def rhs (id : Nat) : List Symbol := ((g.production? id).map (·.rhs)).getD []

def alternatives : Array (List Nat) :=
  (productionRows g.nonTerminals.size g.productions).map (·.toList)

def alternatives? (nonTerminal : Nat) : Option (List Nat) := g.alternatives[nonTerminal]?

def terminalId? (name : String) : Option Nat := g.terminals.id? name

def nonTerminalId? (name : String) : Option Nat := g.nonTerminals.id? name

def terminalName (id : Nat) : String := (g.terminals.name? id).getD "?"

def nonTerminalName (id : Nat) : String := (g.nonTerminals.name? id).getD "?"

def startName : String := g.nonTerminalName g.start

def symbolName : Symbol → String
  | .terminal id => g.terminalName id
  | .nonTerminal id => g.nonTerminalName id

/-- The symbol with a name, a terminal before a non-terminal. -/
def symbol? (name : String) : Option Symbol :=
  ((g.terminalId? name).map .terminal).or ((g.nonTerminalId? name).map .nonTerminal)

def rhsNames (p : Production) : List String := p.rhs.map g.symbolName

def productionText (p : Production) : String :=
  g.nonTerminalName p.lhs ++ " -> " ++
    (if p.rhs.isEmpty then "ε" else " ".intercalate (g.rhsNames p))

def productionText? (id : Nat) : Option String := (g.production? id).map g.productionText

def findProduction? (lhs : String) (rhs : List String) : Option Nat := do
  let nonTerminal ← g.nonTerminalId? lhs
  let ids ← g.alternatives? nonTerminal
  ids.find? fun id => (g.production? id).any (g.rhsNames · == rhs)

def text : String :=
  "grammar " ++ g.name ++ " (start: " ++ g.startName ++ ")\n" ++
    String.join (g.productions.toList.map fun p => "  " ++ g.productionText p ++ "\n")

end Grammar

end GrammarFlow
