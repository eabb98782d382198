import GrammarFlow.Graph
import Std.Data.TreeMap

namespace GrammarFlow

/-- The address of an entry: the position of its set and its place in the set. -/
structure Ref where
  position : Nat
  index : Nat
deriving DecidableEq, Repr

structure Entry where
  vertex : Vertex
  origin : Nat
  antecedents : Array Ref
deriving DecidableEq, Repr

namespace Entry

/-- Records one more antecedent, unless it is recorded already. -/
def link (e : Entry) : Option Ref → Entry
  | none => e
  | some source =>
    if e.antecedents.contains source then e
    else { e with antecedents := e.antecedents.push source }

theorem nodup_link {e : Entry} (h : e.antecedents.toList.Nodup) (source : Option Ref) :
    (e.link source).antecedents.toList.Nodup := by
  cases source with
  | none => exact h
  | some r =>
    simp only [link]
    split
    · exact h
    · next hr =>
      rw [Array.toList_push, List.nodup_append]
      exact ⟨h, by simp, by simp_all; rintro a ha rfl; exact hr ha⟩

def isAmbiguous (e : Entry) : Bool := 1 < e.antecedents.size

end Entry

/-- What tells the entries of one set apart. -/
structure Key where
  vertex : Vertex
  origin : Nat
deriving DecidableEq, Repr

def Entry.key (e : Entry) : Key := ⟨e.vertex, e.origin⟩

namespace Key

def tier : Vertex → Nat
  | .item _ => 1
  | _ => 0

def subject : Vertex → Nat
  | .start n => n
  | .final n => n
  | .item i => i.production

def place : Vertex → Nat
  | .start _ => 0
  | .final _ => 1
  | .item i => i.dot

/-- Vertices are compared in the order of their numbers in a graph, and then the origins. -/
def cmp : Key → Key → Ordering :=
  compareLex (compareOn (tier ·.vertex)) (compareLex (compareOn (subject ·.vertex))
    (compareLex (compareOn (place ·.vertex)) (compareOn origin)))

instance : Std.TransCmp cmp := by unfold cmp; infer_instance

theorem vertex_ext {v w : Vertex} (ht : tier v = tier w) (hs : subject v = subject w)
    (hp : place v = place w) : v = w := by
  cases v <;> cases w <;> simp_all [tier, subject, place]
  rename_i i j
  cases i
  cases j
  simp_all

instance : Std.LawfulEqCmp cmp where
  eq_of_compare {a b} h := by
    obtain ⟨v, o⟩ := a
    obtain ⟨w, p⟩ := b
    simp only [cmp, compareLex, compareOn, Ordering.then_eq_eq, Nat.compare_eq_eq] at h
    obtain ⟨ht, hs, hp, rfl⟩ := h
    rw [vertex_ext ht hs hp]

end Key

/-- The entries of one position, with the place of each key and, for each non-terminal, the places of
the entries that wait for it. -/
structure StateSet where
  entries : Array Entry := #[]
  places : Std.TreeMap Key Nat Key.cmp := ∅
  waiting : Std.TreeMap Nat (Array Nat) := ∅

namespace StateSet

def size (s : StateSet) : Nat := s.entries.size

def isEmpty (s : StateSet) : Bool := s.entries.isEmpty

def find? (s : StateSet) (vertex : Vertex) (origin : Nat) : Option Nat :=
  s.places[(⟨vertex, origin⟩ : Key)]?

/-- The places of the entries that wait for a non-terminal, in order of registration. -/
def callers (s : StateSet) (nonTerminal : Nat) : Array Nat :=
  s.waiting.getD nonTerminal #[]

/-- Enters a vertex with an origin, or adds an antecedent to the entry that there is. -/
def push (s : StateSet) (vertex : Vertex) (origin : Nat) (source : Option Ref) : StateSet :=
  match s.find? vertex origin with
  | some place => { s with entries := s.entries.modify place (·.link source) }
  | none =>
    let place := s.entries.size
    { s with
      entries := s.entries.push ⟨vertex, origin, source.toArray⟩
      places := s.places.insert ⟨vertex, origin⟩ place }

def addPlace (places : Array Nat) (place : Nat) : Array Nat :=
  if places.contains place then places else places.push place

def addCaller (s : StateSet) (nonTerminal place : Nat) : StateSet :=
  { s with
    waiting := s.waiting.alter nonTerminal fun places =>
      some (addPlace (places.getD #[]) place) }

end StateSet

structure Chart where
  sets : Array StateSet

namespace Chart

def initial : Chart := ⟨#[{}]⟩

def addSet (c : Chart) : Chart := ⟨c.sets.push {}⟩

def size (c : Chart) : Nat := c.sets.size

def isEmpty (c : Chart) : Bool := c.sets.isEmpty

def set? (c : Chart) (position : Nat) : Option StateSet := c.sets[position]?

def set (c : Chart) (position : Nat) : StateSet := (c.set? position).getD {}

def entry? (c : Chart) (r : Ref) : Option Entry := do
  let s ← c.set? r.position
  s.entries[r.index]?

def find? (c : Chart) (position : Nat) (vertex : Vertex) (origin : Nat) : Option Ref := do
  let s ← c.set? position
  let index ← s.find? vertex origin
  return ⟨position, index⟩

def push (c : Chart) (position : Nat) (vertex : Vertex) (origin : Nat) (source : Option Ref) :
    Chart :=
  ⟨c.sets.modify position (·.push vertex origin source)⟩

/-- Notes that an entry waits for a non-terminal. -/
def addCaller (c : Chart) (r : Ref) (nonTerminal : Nat) : Chart :=
  ⟨c.sets.modify r.position (·.addCaller nonTerminal r.index)⟩

def entryCount (c : Chart) : Nat := (c.sets.toList.map (·.size)).foldr (· + ·) 0

/-- The last position with an entry, 0 if there is none. -/
def lastPosition (c : Chart) : Nat :=
  (((List.range c.size).filter fun i => !(c.set i).isEmpty).getLast?).getD 0

/-- The terminals that some entry of a position leads on over, in the order of their numbers. -/
def expectedTerminals (c : Chart) (g : Graph) (position : Nat) : List Nat :=
  let shifts := (c.set position).entries.map fun e => g.shift? e.vertex
  (List.range g.grammar.terminals.size).filter fun t => shifts.contains (some t)

def sortedKeys (c : Chart) (position : Nat) : List Key :=
  ((c.set position).entries.toList.map (·.key)).mergeSort fun a b => (Key.cmp a b).isLE

def refs (c : Chart) : List Ref :=
  (List.range c.size).flatMap fun i => (List.range (c.set i).size).map fun k => ⟨i, k⟩

/-- The entries with several antecedents, in chart order. -/
def ambiguousEntries (c : Chart) : List Ref :=
  c.refs.filter fun r => (c.entry? r).any (·.isAmbiguous)

end Chart

end GrammarFlow
