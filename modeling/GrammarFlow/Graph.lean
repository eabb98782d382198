import GrammarFlow.Item

namespace GrammarFlow

inductive Vertex where
  | start (nonTerminal : Nat)
  | final (nonTerminal : Nat)
  | item (item : Item)
deriving DecidableEq, Repr

/-- The item before the symbol that the dot has passed. -/
def Vertex.predecessor? : Vertex → Option Vertex
  | .item i => i.retreat?.map .item
  | _ => none

inductive EdgeKind where
  | start
  | final
  | shift (terminal : Nat)
  | call (nonTerminal : Nat)
  | back (nonTerminal : Nat)
deriving DecidableEq, Repr

structure Edge where
  kind : EdgeKind
  target : Vertex
deriving DecidableEq, Repr

namespace Grammar

variable (g : Grammar)

def itemsOf (p : Production) : List Vertex :=
  (List.range (p.rhs.length + 1)).map fun dot => .item ⟨p.id, dot⟩

/-- All vertices: start and end of each non-terminal, then the items of each production. -/
def vertices : Array Vertex :=
  ((List.range g.nonTerminals.size).flatMap (fun n => [Vertex.start n, Vertex.final n]) ++
    g.productions.toList.flatMap itemsOf).toArray

/-- The numbers of the first items: one production's items follow the other's. -/
def itemBasesFrom (base : Nat) : List Production → List Nat
  | [] => []
  | p :: rest => base :: itemBasesFrom (base + p.rhs.length + 1) rest

def itemBases : Array Nat :=
  (itemBasesFrom (2 * g.nonTerminals.size) g.productions.toList).toArray

/-- The items right after a use of the non-terminal. -/
def returnsIn (nonTerminal : Nat) (p : Production) : List Vertex :=
  ((List.range p.rhs.length).filter fun k => p.rhs[k]? == some (.nonTerminal nonTerminal)).map
    fun k => .item ⟨p.id, k + 1⟩

end Grammar

/-- A grammar with the tables that its graph is read from. -/
structure Graph where
  grammar : Grammar
  alternatives : Array (List Nat) := grammar.alternatives
  vertices : Array Vertex := grammar.vertices
  itemBases : Array Nat := grammar.itemBases
  alternatives_eq : alternatives = grammar.alternatives := by rfl
  vertices_eq : vertices = grammar.vertices := by rfl
  itemBases_eq : itemBases = grammar.itemBases := by rfl

namespace Graph

def ofGrammar (g : Grammar) : Graph := { grammar := g }

variable (g : Graph)

def size : Nat := g.vertices.size

def vertex? (id : Nat) : Option Vertex := g.vertices[id]?

def number : Vertex → Nat
  | .start n => 2 * n
  | .final n => 2 * n + 1
  | .item i => (g.itemBases[i.production]?).getD 0 + i.dot

def itemEdge? (i : Item) : Option Edge :=
  match i.next? g.grammar with
  | some (.terminal t) => some ⟨.shift t, .item i.advance⟩
  | some (.nonTerminal n) => some ⟨.call n, .start n⟩
  | none => (g.grammar.production? i.production).map fun p => ⟨.final, .final p.lhs⟩

def edges : Vertex → List Edge
  | .start n => ((g.alternatives[n]?).getD []).map fun p => ⟨.start, .item ⟨p, 0⟩⟩
  | .final n =>
    (g.grammar.productions.toList.flatMap (Grammar.returnsIn n)).map fun v => ⟨.back n, v⟩
  | .item i => (g.itemEdge? i).toList

/-- The item after the symbol that follows the dot. -/
def successor? : Vertex → Option Vertex
  | .item i => if i.isComplete g.grammar then none else some (.item i.advance)
  | _ => none

theorem predecessor?_of_successor? {v w : Vertex} (h : g.successor? v = some w) :
    w.predecessor? = some v := by
  cases v with
  | item i =>
    simp only [successor?] at h
    split at h
    · simp at h
    · cases h
      rfl
  | start n => simp [successor?] at h
  | final n => simp [successor?] at h

def shift? : Vertex → Option Nat
  | .item i =>
    match i.next? g.grammar with
    | some (.terminal t) => some t
    | _ => none
  | _ => none

def label : Vertex → String
  | .start n => "." ++ g.grammar.nonTerminalName n
  | .final n => g.grammar.nonTerminalName n ++ "."
  | .item i => i.text g.grammar

end Graph

end GrammarFlow
