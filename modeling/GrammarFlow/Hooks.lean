import GrammarFlow.Assembly
import GrammarFlow.Grammar.Declaration

namespace GrammarFlow

abbrev LeafHook (ν : Type) := Token → Span → ν

abbrev ReduceHook (ν : Type) := Production → Span → List ν → ν

structure Hooks (ν : Type) where
  defaultLeaf : LeafHook ν
  defaultReduce : ReduceHook ν
  leaf? : String → Option (LeafHook ν) := fun _ => none
  reduce? : Nat → Option (ReduceHook ν) := fun _ => none

namespace Hooks

variable {ν : Type}

/-- Sets the reduction of a production, in place of any that it had. -/
def onProduction (h : Hooks ν) (production : Nat) (hook : ReduceHook ν) : Hooks ν :=
  { h with reduce? := fun p => if p = production then some hook else h.reduce? p }

def onRule (h : Hooks ν) (g : Grammar) (lhs : String) (rhs : List String) (hook : ReduceHook ν) :
    Except GrammarError (Hooks ν) :=
  (g.findProduction lhs rhs).map (h.onProduction · hook)

def onTerminal (h : Hooks ν) (terminal : String) (hook : LeafHook ν) : Hooks ν :=
  { h with leaf? := fun t => if t = terminal then some hook else h.leaf? t }

def hasHook (h : Hooks ν) (production : Nat) : Bool := (h.reduce? production).isSome

def factory (h : Hooks ν) : Factory Unit ν where
  leaf _ t span s := ((h.leaf? t.terminal).getD h.defaultLeaf t span, s)
  reduce _ p span children s := ((h.reduce? p.id).getD h.defaultReduce p span children, s)

/-- The abstract tree of one derivation. -/
def build (h : Hooks ν) (p : Parsing) : Except DerivationError ν :=
  (p.assemble h.factory ()).map (·.1)

end Hooks

end GrammarFlow
