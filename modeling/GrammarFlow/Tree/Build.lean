import GrammarFlow.Assembly
import GrammarFlow.Grammar.Error
import GrammarFlow.Tree.Basic

namespace GrammarFlow

def Tree.factory : Factory Unit Tree where
  leaf _ t span s := (.leaf t.terminal t.lexeme span, s)
  reduce g p span children s := (.branch (g.nonTerminalName p.lhs) span children, s)

def Parsing.tree (p : Parsing) : Except DerivationError Tree :=
  (p.assemble Tree.factory ()).map (·.1)

inductive Error where
  | grammar (e : GrammarError)
  | parse (f : ParseFailure)
  | derivation (e : DerivationError)
deriving DecidableEq

def Error.message : Error → String
  | .grammar e => e.message
  | .parse f => f.message
  | .derivation e => e.message

def Graph.parseTree (g : Graph) (tokens : List Token) : Except Error Tree :=
  match g.parse tokens with
  | .error failure => .error (.parse failure)
  | .ok p => p.tree.mapError .derivation

end GrammarFlow
