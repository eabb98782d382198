import GrammarFlow.Grammar.Declaration
import GrammarFlow.Json.Printer
import GrammarFlow.Json.Record

namespace GrammarFlow

structure Document where
  name : String := ""
  start : Option String := none
  terminals : Option (List String) := none
  rules : List (String × Json.Value) := []

namespace Document

/-- How many containers may be open at once within the rules. -/
def room : Nat := 125

def fields (size : Nat) : List (Json.Field Document) :=
  [⟨"name", false, fun d s => (Json.string size s).map fun (x, s) => ({ d with name := x }, s)⟩,
    ⟨"start", false, fun d s =>
      (Json.optional (Json.string size) s).map fun (x, s) => ({ d with start := x }, s)⟩,
    ⟨"terminals", false, fun d s =>
      (Json.optional (Json.arrayOf size (Json.string size)) s).map
        fun (x, s) => ({ d with terminals := x }, s)⟩,
    ⟨"rules", true, fun d s =>
      (Json.objectMembers size room s).map fun (x, s) => ({ d with rules := x }, s)⟩]

def ofText (text : String) : Except Json.Fault Document :=
  Json.readText (fun size => Json.record (fields size) {} size) text

/-- The name inside angle brackets, if there is one. -/
def unbracket? (name : String) : Option String :=
  match name.toList with
  | '<' :: rest =>
    if 1 < rest.length ∧ rest.getLast? = some '>' then some (String.ofList rest.dropLast) else none
  | _ => none

def symbolName : Json.Value → Except GrammarError String
  | .string name => .ok name
  | v => .error (.format ("symbol must be a string, got " ++ v.compact))

def rightHandSide : Json.Value → Except GrammarError (List String)
  | .array symbols => symbols.mapM symbolName
  | _ => .error (.format "production must be an array")

def rightHandSides : Json.Value → Except GrammarError (List (List String))
  | .array productions => productions.mapM rightHandSide
  | _ => .error (.format "rules must map to an array of productions")

def writtenRules (d : Document) : Except GrammarError (List (String × List String)) := do
  let groups ← d.rules.mapM fun (lhs, v) => do
    let alternatives ← rightHandSides v
    return alternatives.map fun rhs => (lhs, rhs)
  return groups.flatten

/-- The declaration that the written rules make, with the brackets or without. -/
def declarationOf (d : Document) (rules : List (String × List String)) : Declaration :=
  match d.terminals with
  | some terminals => { name := d.name, terminals, rules, start := d.start }
  | none =>
    let bare (name : String) := (unbracket? name).getD name
    { name := d.name
      terminals := (rules.flatMap (·.2)).filter fun name => (unbracket? name).isNone
      rules := rules.map fun (lhs, rhs) => (bare lhs, rhs.map bare)
      start := d.start.map bare }

def declaration (d : Document) : Except GrammarError Declaration :=
  d.writtenRules.map d.declarationOf

def grammar (d : Document) : Except GrammarError Grammar := do
  let declaration ← d.declaration
  declaration.build

end Document

def Grammar.ofJson (text : String) : Except GrammarError Grammar :=
  match Document.ofText text with
  | .error fault => .error (.json fault)
  | .ok document => document.grammar

def Grammar.ofFile (content : Except FileFault String) : Except GrammarError Grammar :=
  match content with
  | .error fault => .error (.unreadable fault)
  | .ok text => Grammar.ofJson text

end GrammarFlow
