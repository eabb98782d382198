import GrammarFlow.Json.Printer
import GrammarFlow.Json.Record
import GrammarFlow.Text.Blank

namespace GrammarFlow

/-- A piece of input with the name of the terminal that it stands for. -/
structure Token where
  lexeme : String
  terminal : String
deriving DecidableEq, Repr, Inhabited

namespace Token

/-- The words of a text, each with the terminal that `classify` gives it. -/
def ofWordsBy (classify : String → String) (text : String) : List Token :=
  (Text.words text).map fun w => ⟨w, classify w⟩

def ofWords (text : String) : List Token := ofWordsBy id text

def fields (size : Nat) : List (Json.Field Token) :=
  [⟨"lexeme", true, fun t s => (Json.string size s).map fun (x, s) => ({ t with lexeme := x }, s)⟩,
    ⟨"terminal", true, fun t s =>
      (Json.string size s).map fun (x, s) => ({ t with terminal := x }, s)⟩]

def ofJson (text : String) : Except Json.Fault Token :=
  Json.readText (fun size => Json.record (fields size) ⟨"", ""⟩ size) text

def toJson (t : Token) : Json.Value :=
  .object [("lexeme", .string t.lexeme), ("terminal", .string t.terminal)]

end Token

/-- The token indices from `low` up to, and without, `high`. -/
structure Span where
  low : Nat := 0
  high : Nat := 0
deriving DecidableEq, Repr, Inhabited

namespace Span

def length (s : Span) : Nat := s.high - s.low

def isEmpty (s : Span) : Bool := s.low == s.high

def text (s : Span) : String := "[" ++ toString s.low ++ ", " ++ toString s.high ++ "]"

def fields (size : Nat) : List (Json.Field Span) :=
  [⟨"low", true, fun r s => (Json.natural size s).map fun (n, s) => ({ r with low := n }, s)⟩,
    ⟨"high", true, fun r s => (Json.natural size s).map fun (n, s) => ({ r with high := n }, s)⟩]

def ofJson (text : String) : Except Json.Fault Span :=
  Json.readText (fun size => Json.record (fields size) {} size) text

def toJson (s : Span) : Json.Value :=
  .object [("low", .number (.integer s.low)), ("high", .number (.integer s.high))]

end Span

end GrammarFlow
