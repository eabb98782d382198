import GrammarFlow.Derivation.Walk

namespace GrammarFlow

/-- Makes the nodes of a tree. -/
structure Factory (σ ν : Type) where
  leaf : Grammar → Token → Span → σ → ν × σ
  reduce : Grammar → Production → Span → List ν → σ → ν × σ

/-- A node whose children are not complete; `slot` is its place in its parent. -/
structure Pending (ν : Type) where
  production : Nat
  span : Span
  slot : Option Nat
  children : List (Option ν)

namespace Pending

variable {ν : Type}

def lastFree? (p : Pending ν) : Option Nat :=
  ((List.range p.children.length).filter fun k => (p.children[k]?).any (·.isNone)).getLast?

/-- Puts a node into a slot, the rightmost free one if none is given. -/
def place (p : Pending ν) (slot : Option Nat) (node : ν) : Except DerivationError (Pending ν) :=
  let length := p.children.length
  match slot.or p.lastFree? with
  | none => .error (.slotOutOfRange p.production length length)
  | some k =>
    match p.children[k]? with
    | none => .error (.slotOutOfRange p.production k length)
    | some (some _) => .error (.slotOccupied p.production k)
    | some none => .ok { p with children := p.children.set k (some node) }

def firstFree? (p : Pending ν) : Option Nat := p.children.findIdx? (·.isNone)

def filled (p : Pending ν) : List ν := p.children.filterMap id

end Pending

/-- The pending nodes, the innermost first, and the first complete root. -/
structure Assembly (σ ν : Type) where
  state : σ
  stack : List (Pending ν) := []
  root : Option ν := none

/-- What has become of an assembly that received an event. -/
structure Receipt (σ ν : Type) where
  assembly : Assembly σ ν
  fault : Option DerivationError := none

namespace Assembly

variable {σ ν : Type}

def depth (a : Assembly σ ν) : Nat := a.stack.length

def enter (g : Grammar) (production : Nat) (span : Span) (slot : Option Nat)
    (a : Assembly σ ν) : Receipt σ ν :=
  match g.production? production with
  | none => ⟨a, some (.unknownProduction production)⟩
  | some p =>
    ⟨{ a with stack := ⟨production, span, slot, p.rhs.map fun _ => none⟩ :: a.stack }, none⟩

def fill (slot : Option Nat) (node : ν) (top : Pending ν) (rest : List (Pending ν))
    (a : Assembly σ ν) : Receipt σ ν :=
  match top.place slot node with
  | .error fault => ⟨{ a with stack := top :: rest }, some fault⟩
  | .ok top => ⟨{ a with stack := top :: rest }, none⟩

def leaf (f : Factory σ ν) (g : Grammar) (tokens : Array Token) (token slot : Nat)
    (a : Assembly σ ν) : Receipt σ ν :=
  match tokens[token]? with
  | none => ⟨a, some (.tokenOutOfRange token tokens.size)⟩
  | some t =>
    let (node, state) := f.leaf g t ⟨token, token + 1⟩ a.state
    match a.stack with
    | [] => ⟨{ a with state }, some (.emptyStack .leaf)⟩
    | top :: rest => { a with state }.fill (some slot) node top rest

def close (f : Factory σ ν) (g : Grammar) (production : Production) (pending : Pending ν)
    (a : Assembly σ ν) : Receipt σ ν :=
  let (node, state) := f.reduce g production pending.span pending.filled a.state
  match a.stack with
  | parent :: rest => { a with state }.fill pending.slot node parent rest
  | [] =>
    match a.root with
    | none => ⟨{ a with state, root := some node }, none⟩
    | some _ => ⟨{ a with state }, some (.unbalancedTree 0)⟩

def reduce (f : Factory σ ν) (g : Grammar) (production : Nat) (a : Assembly σ ν) :
    Receipt σ ν :=
  match a.stack with
  | [] => ⟨a, some (.emptyStack .reduce)⟩
  | pending :: rest =>
    let a := { a with stack := rest }
    if pending.production ≠ production then
      ⟨a, some (.productionMismatch pending.production production)⟩
    else
      match pending.firstFree? with
      | some slot => ⟨a, some (.missingChild production slot)⟩
      | none =>
        match g.production? production with
        | none => ⟨a, some (.unknownProduction production)⟩
        | some p => a.close f g p pending

/-- Receives one event. After a fault the assembly goes on with what the event has left. -/
def receive (f : Factory σ ν) (p : Parsing) (a : Assembly σ ν) : Event → Receipt σ ν
  | .enter _ production span slot => a.enter p.graph.grammar production span slot
  | .leaf _ token slot => a.leaf f p.graph.grammar p.tokens token slot
  | .reduce production _ => a.reduce f p.graph.grammar production

/-- Receives one event, unless that is a fault. -/
def accept (f : Factory σ ν) (p : Parsing) (a : Assembly σ ν) (event : Event) :
    Except DerivationError (Assembly σ ν) :=
  match a.receive f p event with
  | ⟨_, some fault⟩ => .error fault
  | ⟨a, none⟩ => .ok a

def receiveAll (f : Factory σ ν) (p : Parsing) (a : Assembly σ ν) :
    List Event → Except DerivationError (Assembly σ ν)
  | [] => .ok a
  | event :: events =>
    match a.receive f p event with
    | ⟨_, some fault⟩ => .error fault
    | ⟨a, none⟩ => a.receiveAll f p events

/-- The root, once no node is pending. -/
def finish (a : Assembly σ ν) : Except DerivationError ν :=
  if a.stack.isEmpty then
    match a.root with
    | none => .error .noRoot
    | some node => .ok node
  else .error (.unbalancedTree a.depth)

end Assembly

/-- Builds the tree of one derivation while the walker goes; the factory's last state comes with it. -/
def Parsing.assemble {σ ν : Type} (p : Parsing) (f : Factory σ ν) (state : σ) :
    Except DerivationError (ν × σ) :=
  match p.replay (Assembly.accept f p) ({ state } : Assembly σ ν) with
  | .error fault => .error fault
  | .ok a => a.finish.map (·, a.state)

end GrammarFlow
