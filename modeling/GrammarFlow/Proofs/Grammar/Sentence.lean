import GrammarFlow.Grammar.Basic
import GrammarFlow.Token
import Mathlib.Logic.Relation

namespace GrammarFlow.Grammar

inductive Rewrites (g : Grammar) : List Symbol → List Symbol → Prop where
  | production (before after : List Symbol) (p : Production) (hp : p ∈ g.productions) :
    Rewrites g (before ++ .nonTerminal p.lhs :: after) (before ++ p.rhs ++ after)

def Derives (g : Grammar) : List Symbol → List Symbol → Prop := Relation.ReflTransGen g.Rewrites

/-- The terminals of the tokens are declared, and their numbers are the given ones. -/
def Spells (g : Grammar) (tokens : List Token) (word : List Nat) : Prop :=
  tokens.map (fun t => g.terminalId? t.terminal) = word.map some

/-- All terminals of the tokens are declared, and the start symbol derives them. -/
def IsSentence (g : Grammar) (tokens : List Token) : Prop :=
  ∃ word, g.Spells tokens word ∧ g.Derives [.nonTerminal g.start] (word.map .terminal)

variable {g : Grammar}

namespace Derives

theorem refl (ss : List Symbol) : g.Derives ss ss := Relation.ReflTransGen.refl

theorem trans {ss ts us : List Symbol} (h : g.Derives ss ts) (h' : g.Derives ts us) :
    g.Derives ss us := Relation.ReflTransGen.trans h h'

theorem of_production {p : Production} (hp : p ∈ g.productions) :
    g.Derives [.nonTerminal p.lhs] p.rhs := by
  have h : g.Rewrites _ _ := .production [] [] p hp
  rw [List.nil_append, List.nil_append, List.append_nil] at h
  exact Relation.ReflTransGen.single h

theorem append_left {ss ts : List Symbol} (us : List Symbol) (h : g.Derives ss ts) :
    g.Derives (us ++ ss) (us ++ ts) := by
  refine Relation.ReflTransGen.lift (us ++ ·) ?_ _ _ h
  rintro _ _ ⟨before, after, p, hp⟩
  have hstep := Rewrites.production (us ++ before) after p hp
  simpa only [List.append_assoc] using hstep

theorem append_right {ss ts : List Symbol} (us : List Symbol) (h : g.Derives ss ts) :
    g.Derives (ss ++ us) (ts ++ us) := by
  refine Relation.ReflTransGen.lift (· ++ us) ?_ _ _ h
  rintro _ _ ⟨before, after, p, hp⟩
  have hstep := Rewrites.production before (after ++ us) p hp
  simpa only [Function.onFun, List.append_assoc, List.cons_append] using hstep

theorem append {ss ts us vs : List Symbol} (h : g.Derives ss ts) (h' : g.Derives us vs) :
    g.Derives (ss ++ us) (ts ++ vs) := (h.append_right us).trans (h'.append_left ts)

end Derives

namespace Spells

variable {tokens : List Token} {word : List Nat}

theorem length_eq (h : g.Spells tokens word) : tokens.length = word.length := by
  simpa only [List.length_map] using congrArg List.length h

end Spells

end GrammarFlow.Grammar
