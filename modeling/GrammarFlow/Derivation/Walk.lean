import GrammarFlow.Parsing
import GrammarFlow.Derivation.Error

namespace GrammarFlow

inductive Event where
  /-- A node begins; `slot` is its place in its parent, `none` for the root. -/
  | enter (nonTerminal production : Nat) (span : Span) (slot : Option Nat)
  /-- A token stands at a place of the open node. -/
  | leaf (terminal token slot : Nat)
  /-- All children of the open node have been met. -/
  | reduce (production : Nat) (span : Span)
deriving DecidableEq, Repr

/-- A call to go on with once the start of the callee is reached. -/
structure ReturnPoint where
  caller : Vertex
  origin : Nat
deriving DecidableEq, Repr

/-- The state of a walk over one derivation: the entry that comes next, the calls to return to and the
spans of the open nodes, the innermost first, and the place of the next node in its parent. -/
structure Walker where
  current : Option Ref
  returns : List ReturnPoint := []
  opened : List Span := []
  nextSlot : Option Nat := none
deriving DecidableEq, Repr

namespace Parsing

def walker (p : Parsing) : Walker := { current := some p.accept }

def noAntecedent (p : Parsing) (e : Entry) (r : Ref) : DerivationError :=
  .missingAntecedent (p.graph.label e.vertex) r.position

def firstAntecedent (p : Parsing) (e : Entry) (r : Ref) : Except DerivationError Ref :=
  match e.antecedents[0]? with
  | none => .error (p.noAntecedent e r)
  | some a => .ok a

/-- At an end a node begins, with the production of the item that it is first reached from. -/
def enterNode (p : Parsing) (w : Walker) (r : Ref) (e : Entry) (nonTerminal : Nat) :
    Except DerivationError (Option Event × Walker) :=
  match p.firstAntecedent e r with
  | .error fault => .error fault
  | .ok exit =>
    match p.chart.entry? exit with
    | some ⟨.item i, _, _⟩ =>
      let span : Span := ⟨e.origin, r.position⟩
      .ok (some (.enter nonTerminal i.production span w.nextSlot),
        { w with current := some exit, opened := span :: w.opened, nextSlot := none })
    | _ => .error (p.noAntecedent e r)

/-- At an item with the dot before all symbols the innermost node ends. -/
def reduceNode (p : Parsing) (w : Walker) (r : Ref) (e : Entry) (i : Item) :
    Except DerivationError (Option Event × Walker) :=
  match w.opened with
  | [] => .error (.emptyStack .reduce)
  | span :: opened =>
    match p.firstAntecedent e r with
    | .error fault => .error fault
    | .ok a => .ok (some (.reduce i.production span), { w with current := some a, opened })

/-- The symbol before the dot is a token, or a node that begins with the next entry. -/
def retreat (p : Parsing) (w : Walker) (r : Ref) (e : Entry) (i : Item) :
    Except DerivationError (Option Event × Walker) :=
  match p.firstAntecedent e r with
  | .error fault => .error fault
  | .ok a =>
    match i.previous? p.graph.grammar with
    | none => .error (p.noAntecedent e r)
    | some (.terminal t) =>
      .ok (some (.leaf t (r.position - 1) (i.dot - 1)), { w with current := some a })
    | some (.nonTerminal _) =>
      match e.vertex.predecessor? with
      | none => .error (p.noAntecedent e r)
      | some caller =>
        .ok (none, { w with
          current := some a
          returns := ⟨caller, e.origin⟩ :: w.returns
          nextSlot := some (i.dot - 1) })

/-- At the start of a non-terminal the walk goes on with the entry that called it, if there is one. -/
def returnFrom (p : Parsing) (w : Walker) (r : Ref) : Except DerivationError (Option Event × Walker) :=
  match w.returns with
  | [] => .ok (none, { w with current := none })
  | point :: returns =>
    match p.chart.find? r.position point.caller point.origin with
    | none => .error (.missingCaller (p.graph.label point.caller) point.origin r.position)
    | some caller => .ok (none, { w with current := some caller, returns })

/-- Goes on from the entry at `r`, with one event at most. -/
def step (p : Parsing) (w : Walker) (r : Ref) : Except DerivationError (Option Event × Walker) :=
  match p.chart.entry? r with
  -- No address that a walk comes to is outside the chart.
  | none => .error .noRoot
  | some e =>
    match e.vertex with
    | .start _ => p.returnFrom w r
    | .final n => p.enterNode w r e n
    | .item i =>
      match i.position p.graph.grammar with
      | .empty | .atStart => p.reduceNode w r e i
      | .middle | .atEnd => p.retreat w r e i

/-- The next event. After an error there is no entry to go on with. -/
def next (p : Parsing) : Nat → Walker → Option (Except DerivationError Event) × Walker
  | 0, w => (none, w)
  | fuel + 1, w =>
    match w.current with
    | none => (none, w)
    | some r =>
      match p.step w r with
      | .error fault => (some (.error fault), { w with current := none })
      | .ok (some event, w') => (some (.ok event), w')
      | .ok (none, w') => p.next fuel w'

/-- Hands the events to `receive`, one at a time and up to the first error of either side. -/
def handAll {α : Type} (p : Parsing) (receive : α → Event → Except DerivationError α) (bound : Nat) :
    Nat → Walker → α → Except DerivationError α
  | 0, _, a => .ok a
  | fuel + 1, w, a =>
    match p.next bound w with
    | (none, _) => .ok a
    | (some (.error fault), _) => .error fault
    | (some (.ok event), w') =>
      match receive a event with
      | .error fault => .error fault
      | .ok a => p.handAll receive bound fuel w' a

/-- More steps than a walk makes. A derivation may be exponentially larger than the chart. -/
def stepBound (p : Parsing) : Nat := Nat.pow 2 (p.chart.entryCount + 1)

def replay {α : Type} (p : Parsing) (receive : α → Event → Except DerivationError α) (a : α) :
    Except DerivationError α :=
  p.handAll receive p.stepBound p.stepBound p.walker a

def walk (p : Parsing) : Except DerivationError (List Event) :=
  (p.replay (fun events event => .ok (events.push event)) #[]).map (·.toList)

end Parsing

end GrammarFlow
