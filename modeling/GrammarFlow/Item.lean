import GrammarFlow.Grammar.Basic

namespace GrammarFlow

structure Item where
  production : Nat
  dot : Nat
deriving DecidableEq, Repr

/-- Where the dot stands; an empty right-hand side has one place only. -/
inductive DotPosition where
  | empty
  | atStart
  | middle
  | atEnd
deriving DecidableEq, Repr

namespace Item

variable (g : Grammar) (i : Item)

def length : Nat := (g.rhs i.production).length

def position : DotPosition :=
  if i.length g = 0 then .empty
  else if i.dot = 0 then .atStart
  else if i.dot = i.length g then .atEnd
  else .middle

def isComplete : Bool := i.length g ≤ i.dot

def next? : Option Symbol := (g.rhs i.production)[i.dot]?

def previous? : Option Symbol :=
  match i.dot with
  | 0 => none
  | k + 1 => (g.rhs i.production)[k]?

def advance : Item := ⟨i.production, i.dot + 1⟩

def retreat? : Option Item :=
  match i.dot with
  | 0 => none
  | k + 1 => some ⟨i.production, k⟩

@[simp] theorem retreat?_advance : i.advance.retreat? = some i := rfl

@[simp] theorem previous?_advance : i.advance.previous? g = i.next? g := rfl

theorem position_eq_of_dot_eq_zero (production : Nat) :
    position g ⟨production, 0⟩ = .empty ∨ position g ⟨production, 0⟩ = .atStart := by
  unfold position
  split
  · exact .inl rfl
  · exact .inr (if_pos rfl)

theorem position_advance {s : Symbol} (h : i.next? g = some s) :
    i.advance.position g = .middle ∨ i.advance.position g = .atEnd := by
  obtain ⟨hlt, -⟩ := List.getElem?_eq_some_iff.1 h
  have hne : i.advance.length g ≠ 0 := Nat.ne_of_gt (Nat.zero_lt_of_lt hlt)
  have hdot : i.advance.dot ≠ 0 := Nat.succ_ne_zero i.dot
  rw [position, if_neg hne, if_neg hdot]
  split
  · exact .inr rfl
  · exact .inl rfl

theorem next?_eq_none_iff : i.next? g = none ↔ i.isComplete g = true := by
  rw [next?, List.getElem?_eq_none_iff]
  exact decide_eq_true_iff.symm

/-- The right-hand side with the dot between its symbols, or after them all. -/
def text : String :=
  let names := (g.rhs i.production).map g.symbolName
  let lhs := ((g.production? i.production).map fun p => g.nonTerminalName p.lhs).getD "?"
  lhs ++ " =>" ++
    String.join ((names.take i.dot ++ "." :: names.drop i.dot).map (" " ++ ·))

end Item

def Grammar.item? (g : Grammar) (production dot : Nat) : Option Item :=
  (g.production? production).map fun _ => ⟨production, dot⟩

end GrammarFlow
