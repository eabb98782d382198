import GrammarFlow.Grammar.Basic
import GrammarFlow.Grammar.Error

namespace GrammarFlow

structure Declaration where
  name : String
  terminals : List String := []
  rules : List (String × List String) := []
  start : Option String := none
deriving DecidableEq, Repr

namespace Declaration

def declareTerminals (d : Declaration) (names : List String) : Declaration :=
  { d with terminals := d.terminals ++ names }

def declareRule (d : Declaration) (lhs : String) (rhs : List String) : Declaration :=
  { d with rules := d.rules ++ [(lhs, rhs)] }

def declareStart (d : Declaration) (name : String) : Declaration :=
  { d with start := some name }

def terminalTable (d : Declaration) : NameTable := NameTable.empty.insertAll d.terminals

/-- Enters the left-hand sides as non-terminals, unless one of them is a terminal. -/
def enterHeads (terminals : NameTable) :
    NameTable → List (String × List String) → Except GrammarError NameTable
  | table, [] => .ok table
  | table, (lhs, _) :: rules =>
    if terminals.contains lhs then .error (.nameCollision lhs)
    else enterHeads terminals (table.insert lhs).2 rules

/-- The symbols of a right-hand side. A name that is not a terminal is entered as a non-terminal. -/
def enterNames (terminals : NameTable) : NameTable → List String → List Symbol × NameTable
  | table, [] => ([], table)
  | table, name :: names =>
    match terminals.id? name with
    | some id =>
      let (symbols, table) := enterNames terminals table names
      (.terminal id :: symbols, table)
    | none =>
      let (id, table) := table.insert name
      let (symbols, table) := enterNames terminals table names
      (.nonTerminal id :: symbols, table)

def enterRule (terminals : NameTable) (entered : NameTable × Array Production)
    (rule : String × List String) : NameTable × Array Production :=
  let (table, productions) := entered
  let (lhs, table) := table.insert rule.1
  let (rhs, table) := enterNames terminals table rule.2
  (table, productions.push ⟨productions.size, lhs, rhs⟩)

def enterRules (terminals heads : NameTable) (rules : List (String × List String)) :
    NameTable × Array Production :=
  rules.foldl (enterRule terminals) (heads, #[])

/-- The grammar of a declaration. The left-hand sides are entered first, then the rules; a non-terminal
without productions is an error. -/
def build (d : Declaration) : Except GrammarError Grammar :=
  match d.rules with
  | [] => .error .emptyGrammar
  | (firstLhs, _) :: _ =>
    let terminals := d.terminalTable
    match enterHeads terminals NameTable.empty d.rules with
    | .error fault => .error fault
    | .ok heads =>
      let startName := d.start.getD firstLhs
      if terminals.contains startName then .error (.nameCollision startName)
      else
        match heads.id? startName with
        | none => .error (.undefinedStart startName)
        | some start =>
          let (nonTerminals, productions) := enterRules terminals heads d.rules
          match (productionRows nonTerminals.size productions).findIdx? (·.isEmpty) with
          | some n => .error (.missingProductions ((nonTerminals.name? n).getD "?"))
          | none => .ok { name := d.name, start, terminals, nonTerminals, productions }

end Declaration

def Grammar.findProduction (g : Grammar) (lhs : String) (rhs : List String) :
    Except GrammarError Nat :=
  match g.findProduction? lhs rhs with
  | some id => .ok id
  | none => .error (.unknownRule lhs (" ".intercalate rhs))

end GrammarFlow
