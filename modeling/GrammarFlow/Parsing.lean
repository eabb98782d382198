import GrammarFlow.Chart
import GrammarFlow.Token

namespace GrammarFlow

namespace Chart

/-- Carries a caller over the non-terminal whose recognition has ended. -/
def resume (c : Chart) (g : Graph) (caller ended : Ref) : Chart :=
  match c.entry? caller with
  | none => c
  | some e =>
    match g.successor? e.vertex with
    | none => c
    | some v => c.push ended.position v e.origin (some ended)

/-- Calls a non-terminal. If it has ended empty at this position before, its end is not met again, so
the caller is carried over at once. -/
def call (c : Chart) (g : Graph) (here : Ref) (nonTerminal : Nat) : Chart :=
  let c := (c.addCaller here nonTerminal).push here.position (.start nonTerminal)
    here.position (some here)
  match c.find? here.position (.final nonTerminal) here.position with
  | some ended => c.resume g here ended
  | none => c

/-- Ends a non-terminal that began at `origin`: all callers that wait for it there go on. -/
def complete (c : Chart) (g : Graph) (here : Ref) (nonTerminal origin : Nat) : Chart :=
  ((c.set origin).callers nonTerminal).foldl (fun c place => c.resume g ⟨origin, place⟩ here) c

/-- Follows an edge from an entry that began at `origin`, with `next` as the coming terminal. -/
def follow (g : Graph) (next : Option Nat) (here : Ref) (origin : Nat) (c : Chart) (edge : Edge) :
    Chart :=
  match edge.kind with
  | .start => c.push here.position edge.target origin (some here)
  | .final => c.push here.position edge.target origin (some here)
  | .shift t =>
    if next = some t then c.push (here.position + 1) edge.target origin (some here) else c
  | .call n => c.call g here n
  | .back _ => c

def process (c : Chart) (g : Graph) (next : Option Nat) (here : Ref) : Chart :=
  match c.entry? here with
  | none => c
  | some ⟨.final n, origin, _⟩ => c.complete g here n origin
  | some ⟨v, origin, _⟩ => (g.edges v).foldl (follow g next here origin) c

/-- Processes the entries of position `i` from `place` on, at most `fuel` of them. -/
def closeFrom (g : Graph) (next : Option Nat) (i : Nat) : Nat → Nat → Chart → Chart
  | 0, _, c => c
  | fuel + 1, place, c =>
    if place < (c.set i).size then
      closeFrom g next i fuel (place + 1) (c.process g next ⟨i, place⟩)
    else c

/-- Processes all entries of position `i`. A set holds no more entries than there are vertices and
origins up to `i`. -/
def close (c : Chart) (g : Graph) (next : Option Nat) (i : Nat) : Chart :=
  closeFrom g next i (g.size * (i + 1)) 0 c

/-- Closes position `i` before a token, whose shifts seed the next position. -/
def advance (c : Chart) (g : Graph) (i : Nat) (t : Token) : Chart :=
  c.addSet.close g (g.grammar.terminalId? t.terminal) i

/-- The chart before any token: the start symbol is to be recognised from position 0. -/
def seeded (g : Graph) : Chart :=
  initial.push 0 (.start g.grammar.start) 0 none

end Chart

/-- The tokens do not begin a sentence of the grammar beyond `position`. -/
structure ParseFailure where
  position : Nat
  expected : List String
  found : Option Token
deriving DecidableEq, Repr

namespace ParseFailure

def expectation : List String → String
  | [] => "no further input expected"
  | [name] => "expected '" ++ name ++ "'"
  | names => "expected one of [" ++ ", ".intercalate names ++ "]"

def finding : Option Token → String
  | some t => ", found '" ++ t.lexeme ++ "' (" ++ t.terminal ++ ")"
  | none => ", found end of input"

def message (f : ParseFailure) : String :=
  "syntax error at position " ++ toString f.position ++ ": " ++ expectation f.expected ++
    finding f.found

end ParseFailure

def Chart.failure (c : Chart) (g : Graph) (position : Nat) (found : Option Token) : ParseFailure :=
  { position
    expected := ((c.expectedTerminals g position).map g.grammar.terminalName).mergeSort
    found }

/-- A successful parse: the chart over the tokens, and the entry that accepts them. -/
structure Parsing where
  graph : Graph
  chart : Chart
  tokens : Array Token
  accept : Ref

/-- The outcome of reading tokens, with those that were never asked for. -/
structure Run where
  outcome : Except ParseFailure Parsing
  unread : List Token

namespace Graph

/-- Reads on after the tokens `seen`, whose last shifts have seeded the chart. -/
def readOn (g : Graph) (seen : Array Token) (c : Chart) : List Token → Run
  | [] =>
    let c := c.close g none seen.size
    match c.find? seen.size (.final g.grammar.start) 0 with
    | some accept => ⟨.ok ⟨g, c, seen, accept⟩, []⟩
    | none => ⟨.error (c.failure g seen.size none), []⟩
  | t :: rest =>
    let c := c.advance g seen.size t
    if (c.set (seen.size + 1)).isEmpty then ⟨.error (c.failure g seen.size (some t)), rest⟩
    else g.readOn (seen.push t) c rest

def run (g : Graph) (tokens : List Token) : Run :=
  g.readOn #[] (Chart.seeded g) tokens

def parse (g : Graph) (tokens : List Token) : Except ParseFailure Parsing :=
  (g.run tokens).outcome

def recognizes (g : Graph) (tokens : List Token) : Bool :=
  match g.parse tokens with
  | .ok _ => true
  | .error _ => false

end Graph

end GrammarFlow
