import GrammarFlow.Decimal.Shortest

namespace GrammarFlow.Json

inductive Number where
  | integer (value : Int)
  | binary (negative : Bool) (magnitude : Decimal.Binary64)
deriving DecidableEq, Repr

inductive Value where
  | null
  | bool (value : Bool)
  | number (value : Number)
  | string (value : String)
  | array (items : List Value)
  | object (members : List (String × Value))

/-- Stores a member: a new key goes to the end, a known one keeps its place and takes the value. -/
def insertMember {α : Type} (key : String) (value : α) : List (String × α) → List (String × α)
  | [] => [(key, value)]
  | (k, v) :: rest =>
    if k = key then (k, value) :: rest else (k, v) :: insertMember key value rest

end GrammarFlow.Json
