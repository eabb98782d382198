namespace GrammarFlow

/-- The events that need a pending node. -/
inductive NodeEvent where
  | leaf
  | reduce
deriving DecidableEq, Repr

def NodeEvent.name : NodeEvent → String
  | .leaf => "leaf"
  | .reduce => "reduce"

inductive DerivationError where
  | missingAntecedent (entry : String) (position : Nat)
  | missingCaller (vertex : String) (origin position : Nat)
  | missingChild (production slot : Nat)
  | productionMismatch (expected found : Nat)
  | slotOutOfRange (production slot length : Nat)
  | slotOccupied (production slot : Nat)
  | tokenOutOfRange (token length : Nat)
  | emptyStack (event : NodeEvent)
  | unbalancedTree (pending : Nat)
  | noRoot
  | unknownProduction (production : Nat)
deriving DecidableEq, Repr

def DerivationError.message : DerivationError → String
  | .missingAntecedent entry position =>
    "chart entry " ++ entry ++ " in state set " ++ toString position ++ " has no antecedent"
  | .missingCaller vertex origin position =>
    "no caller entry for " ++ vertex ++ " with origin " ++ toString origin ++ " in state set " ++
      toString position
  | .missingChild production slot =>
    "reduce of production " ++ toString production ++ " is missing child slot " ++ toString slot
  | .productionMismatch expected found =>
    "reduce of production " ++ toString found ++ " while production " ++ toString expected ++
      " is pending"
  | .slotOutOfRange production slot length =>
    "slot " ++ toString slot ++ " is out of range for production " ++ toString production ++
      " with " ++ toString length ++ " symbols"
  | .slotOccupied production slot =>
    "slot " ++ toString slot ++ " of production " ++ toString production ++ " is filled twice"
  | .tokenOutOfRange token length =>
    "leaf refers to token " ++ toString token ++ " but the parse holds " ++ toString length ++
      " tokens"
  | .emptyStack event => event.name ++ " event received with no pending node"
  | .unbalancedTree pending =>
    "event stream ended with " ++ toString pending ++ " pending nodes"
  | .noRoot => "event stream produced no root node"
  | .unknownProduction production =>
    "production " ++ toString production ++ " is not in the grammar"

end GrammarFlow
