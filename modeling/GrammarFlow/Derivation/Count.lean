import GrammarFlow.Parsing

namespace GrammarFlow

/-- One way to derive an entry: from another one, or from the end of a non-terminal and the caller
that waited for it. -/
structure Term where
  source : Ref
  caller : Option Ref
deriving DecidableEq, Repr

def Term.refs (t : Term) : List Ref := t.source :: t.caller.toList

/-- Counts go up to `2 ^ 128 - 1` and stay there. -/
def maxCount : Nat := Nat.pow 2 128 - 1

def boundedAdd (m n : Nat) : Nat := min (m + n) maxCount

def boundedMul (m n : Nat) : Nat := min (m * n) maxCount

/-- What is known of the count of an entry. -/
inductive Mark where
  | unseen
  | active
  | counted (n : Nat)
deriving DecidableEq, Repr

structure Tally where
  marks : Array (Array Mark)

namespace Tally

def ofChart (c : Chart) : Tally := ⟨c.sets.map fun s => Array.replicate s.size .unseen⟩

def mark (t : Tally) (r : Ref) : Mark := ((t.marks[r.position]?).bind (·[r.index]?)).getD .unseen

def setMark (t : Tally) (r : Ref) (m : Mark) : Tally :=
  ⟨t.marks.modify r.position fun row => row.modify r.index fun _ => m⟩

def isCounted (t : Tally) (r : Ref) : Bool :=
  match t.mark r with
  | .counted _ => true
  | _ => false

def count (t : Tally) (r : Ref) : Nat :=
  match t.mark r with
  | .counted n => n
  | _ => 0

def total (t : Tally) (terms : List Term) : Nat :=
  terms.foldl
    (fun sum term => boundedAdd sum
      (match term.caller with
        | some caller => boundedMul (t.count term.source) (t.count caller)
        | none => t.count term.source))
    0

end Tally

namespace Parsing

def grammar (p : Parsing) : Grammar := p.graph.grammar

/-- The antecedents of an entry, each a term of its own. -/
def plainTerms (e : Entry) : List Term := e.antecedents.toList.map fun r => ⟨r, none⟩

/-- The terms of an item behind a non-terminal: each end of the non-terminal goes with the entry that
called it. -/
def returnTerms (p : Parsing) (e : Entry) : List Term :=
  e.antecedents.toList.filterMap fun ended => do
    let caller ← e.vertex.predecessor?
    let callee ← p.chart.entry? ended
    let r ← p.chart.find? callee.origin caller e.origin
    return ⟨ended, some r⟩

/-- The terms of the count of an entry, and `none` for an entry that counts once: a start vertex or an
item before all symbols. -/
def termsOf (p : Parsing) (e : Entry) : Option (List Term) :=
  match e.vertex with
  | .start _ => none
  | .final _ => some (plainTerms e)
  | .item i =>
    match i.previous? p.grammar with
    | none => none
    | some (.terminal _) => some (plainTerms e)
    | some (.nonTerminal _) => some (p.returnTerms e)

def terms (p : Parsing) (r : Ref) : Option (List Term) := (p.chart.entry? r).bind p.termsOf

/-- Counts the entries on the stack. An entry is expanded when it is met first and counted when it is
met again below its terms; to meet one in between is a cycle. -/
def countFrom (p : Parsing) : Nat → List (Ref × Bool) → Tally → Option Tally
  | _, [], t => some t
  | 0, _ :: _, _ => none
  | fuel + 1, (r, expanded) :: stack, t =>
    if t.isCounted r then p.countFrom fuel stack t
    else if expanded then
      let n := match p.terms r with
        | none => 1
        | some terms => t.total terms
      p.countFrom fuel stack (t.setMark r (.counted n))
    else if t.mark r = .active then none
    else
      let sources := (((p.terms r).getD []).flatMap Term.refs).filter (!t.isCounted ·)
      p.countFrom fuel (sources.reverse.map (·, false) ++ (r, true) :: stack)
        (t.setMark r .active)

/-- Every entry is expanded at most once, and then puts itself and two entries for each antecedent on
the stack. -/
def countFuel (p : Parsing) : Nat :=
  1 + (p.chart.sets.toList.map fun s =>
    (s.entries.toList.map fun e => 1 + 2 * e.antecedents.size).foldr (· + ·) 0).foldr (· + ·) 0

/-- The number of derivation trees, or `none` if there are infinitely many. -/
def derivationCount (p : Parsing) : Option Nat := do
  let t ← p.countFrom p.countFuel [(p.accept, false)] (Tally.ofChart p.chart)
  return t.count p.accept

def isAmbiguous (p : Parsing) : Bool :=
  match p.derivationCount with
  | none => true
  | some n => 1 < n

end Parsing

end GrammarFlow
