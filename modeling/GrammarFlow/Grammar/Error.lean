import GrammarFlow.Json.Numeral

namespace GrammarFlow

inductive FileFault where
  | missing
  | directory
  | notText
  | other (message : String)
deriving DecidableEq, Repr

def FileFault.message : FileFault → String
  | .missing => "No such file or directory (os error 2)"
  | .directory => "Is a directory (os error 21)"
  | .notText => "stream did not contain valid UTF-8"
  | .other message => message

inductive GrammarError where
  | emptyGrammar
  | undefinedStart (name : String)
  | missingProductions (name : String)
  | nameCollision (name : String)
  | unknownRule (lhs rhs : String)
  | format (reason : String)
  | unreadable (fault : FileFault)
  | json (fault : Json.Fault)
deriving DecidableEq, Repr

def GrammarError.message : GrammarError → String
  | .emptyGrammar => "grammar has no productions"
  | .undefinedStart name => "start symbol '" ++ name ++ "' is not defined by any production"
  | .missingProductions name =>
    "non-terminal '" ++ name ++ "' is referenced but has no productions"
  | .nameCollision name => "'" ++ name ++ "' is declared both as a terminal and as a non-terminal"
  | .unknownRule lhs rhs => "no production " ++ lhs ++ " -> " ++ rhs
  | .format reason => "invalid grammar declaration: " ++ reason
  | .unreadable fault => "failed to read grammar file: " ++ fault.message
  | .json fault => "failed to parse grammar JSON: " ++ fault.message

end GrammarFlow
