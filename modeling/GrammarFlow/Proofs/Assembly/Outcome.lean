import GrammarFlow.Proofs.Assembly.Slots

namespace GrammarFlow

namespace Assembly

variable {σ ν : Type}

def receiveEach (f : Factory σ ν) (p : Parsing) (a : Assembly σ ν) (events : List Event) : Assembly σ ν :=
  events.foldl (fun a event => (a.receive f p event).assembly) a

/-- A pending node with all its children is made by the factory. -/
structure Makes (f : Factory σ ν) (g : Grammar) (state : σ) (top : Pending ν) (q : Production)
    (nodes : List ν) (made : ν × σ) : Prop where
  declared : g.production? top.production = some q
  full : top.children = nodes.map some
  made_eq : f.reduce g q top.span nodes state = made

inductive Outcome (f : Factory σ ν) (p : Parsing) (a : Assembly σ ν) : Event → Receipt σ ν → Prop
  | entered {n id : Nat} {span : Span} {slot : Option Nat} {q : Production}
      (hq : p.graph.grammar.production? id = some q) :
      Outcome f p a (.enter n id span slot)
        ⟨{ a with stack := ⟨id, span, slot, q.rhs.map fun _ => none⟩ :: a.stack }, none⟩
  | undeclared {n id : Nat} {span : Span} {slot : Option Nat}
      (hq : p.graph.grammar.production? id = none) :
      Outcome f p a (.enter n id span slot) ⟨a, some (.unknownProduction id)⟩
  | beyond {n token slot : Nat} (htoken : p.tokens.size ≤ token) :
      Outcome f p a (.leaf n token slot) ⟨a, some (.tokenOutOfRange token p.tokens.size)⟩
  | loose {n token slot : Nat} {t : Token} (htoken : p.tokens[token]? = some t) (hstack : a.stack = []) :
      Outcome f p a (.leaf n token slot)
        ⟨{ a with state := (f.leaf p.graph.grammar t ⟨token, token + 1⟩ a.state).2 },
          some (.emptyStack .leaf)⟩
  | leafRefused {n token slot : Nat} {t : Token} {top : Pending ν} {rest : List (Pending ν)}
      {fault : DerivationError} (htoken : p.tokens[token]? = some t) (hstack : a.stack = top :: rest)
      (hrefuse : top.Refuses (some slot) fault) :
      Outcome f p a (.leaf n token slot)
        ⟨{ a with state := (f.leaf p.graph.grammar t ⟨token, token + 1⟩ a.state).2 }, some fault⟩
  | leafTaken {n token slot : Nat} {t : Token} {top : Pending ν} {rest : List (Pending ν)}
      {made : ν × σ} (htoken : p.tokens[token]? = some t) (hstack : a.stack = top :: rest)
      (hmade : f.leaf p.graph.grammar t ⟨token, token + 1⟩ a.state = made) (hfree : slot ∈ top.Free) :
      Outcome f p a (.leaf n token slot) ⟨⟨made.2, top.put slot made.1 :: rest, a.root⟩, none⟩
  | noneOpen {id : Nat} {span : Span} (hstack : a.stack = []) :
      Outcome f p a (.reduce id span) ⟨a, some (.emptyStack .reduce)⟩
  | mismatch {id : Nat} {span : Span} {top : Pending ν} {rest : List (Pending ν)}
      (hstack : a.stack = top :: rest) (hid : top.production ≠ id) :
      Outcome f p a (.reduce id span)
        ⟨{ a with stack := rest }, some (.productionMismatch top.production id)⟩
  | missing {id k : Nat} {span : Span} {top : Pending ν} {rest : List (Pending ν)}
      (hstack : a.stack = top :: rest) (hid : top.production = id) (hk : IsLeast top.Free k) :
      Outcome f p a (.reduce id span) ⟨{ a with stack := rest }, some (.missingChild id k)⟩
  | unmade {id : Nat} {span : Span} {top : Pending ν} {rest : List (Pending ν)}
      (hstack : a.stack = top :: rest) (hid : top.production = id) (hfull : top.Free = ∅)
      (hq : p.graph.grammar.production? id = none) :
      Outcome f p a (.reduce id span) ⟨{ a with stack := rest }, some (.unknownProduction id)⟩
  | nodeRefused {id : Nat} {span : Span} {top parent : Pending ν} {rest : List (Pending ν)}
      {q : Production} {nodes : List ν} {made : ν × σ} {fault : DerivationError}
      (hstack : a.stack = top :: parent :: rest) (hid : top.production = id)
      (hmade : Makes f p.graph.grammar a.state top q nodes made)
      (hrefuse : parent.Refuses top.slot fault) :
      Outcome f p a (.reduce id span) ⟨⟨made.2, parent :: rest, a.root⟩, some fault⟩
  | nodeTaken {id k : Nat} {span : Span} {top parent : Pending ν} {rest : List (Pending ν)}
      {q : Production} {nodes : List ν} {made : ν × σ}
      (hstack : a.stack = top :: parent :: rest) (hid : top.production = id)
      (hmade : Makes f p.graph.grammar a.state top q nodes made) (htake : parent.Takes top.slot k) :
      Outcome f p a (.reduce id span) ⟨⟨made.2, parent.put k made.1 :: rest, a.root⟩, none⟩
  | rooted {id : Nat} {span : Span} {top : Pending ν} {q : Production} {nodes : List ν} {made : ν × σ}
      (hstack : a.stack = [top]) (hid : top.production = id)
      (hmade : Makes f p.graph.grammar a.state top q nodes made) (hroot : a.root = none) :
      Outcome f p a (.reduce id span) ⟨⟨made.2, [], some made.1⟩, none⟩
  | secondRoot {id : Nat} {span : Span} {top : Pending ν} {q : Production} {nodes : List ν}
      {made : ν × σ} (hstack : a.stack = [top]) (hid : top.production = id)
      (hmade : Makes f p.graph.grammar a.state top q nodes made) (hroot : a.root ≠ none) :
      Outcome f p a (.reduce id span) ⟨⟨made.2, [], a.root⟩, some (.unbalancedTree 0)⟩

variable {f : Factory σ ν} {p : Parsing} {a : Assembly σ ν}

theorem receiveEach_append (xs ys : List Event) :
    a.receiveEach f p (xs ++ ys) = (a.receiveEach f p xs).receiveEach f p ys :=
  List.foldl_append

theorem receiveEach_concat (events : List Event) (event : Event) :
    a.receiveEach f p (events ++ [event]) =
      ((a.receiveEach f p events).receive f p event).assembly := by
  rw [receiveEach_append]
  rfl

/-- What every event keeps, every run keeps. -/
theorem receiveEach_induction {P : Assembly σ ν → Prop}
    (hstep : ∀ a event, P a → P (a.receive f p event).assembly) (h : P a) (events : List Event) :
    P (a.receiveEach f p events) := by
  induction events generalizing a with
  | nil => exact h
  | cons event events ih => exact ih (hstep a event h)

theorem fill_of_takes {top : Pending ν} {slot : Option Nat} {k : Nat} (h : top.Takes slot k) (node : ν)
    (rest : List (Pending ν)) :
    a.fill slot node top rest = ⟨{ a with stack := top.put k node :: rest }, none⟩ := by
  rw [fill, h.place_eq]

theorem fill_of_refuses {top : Pending ν} {slot : Option Nat} {fault : DerivationError}
    (h : top.Refuses slot fault) (node : ν) (rest : List (Pending ν)) :
    a.fill slot node top rest = ⟨{ a with stack := top :: rest }, some fault⟩ := by
  rw [fill, h.place_eq]

theorem leaf_outcome (n token slot : Nat) :
    Outcome f p a (.leaf n token slot) (a.receive f p (.leaf n token slot)) := by
  rw [receive, leaf]
  cases htoken : p.tokens[token]? with
  | none => exact .beyond (Array.getElem?_eq_none_iff.1 htoken)
  | some t =>
    obtain ⟨state, stack, root⟩ := a
    cases stack with
    | nil => exact .loose htoken rfl
    | cons top rest =>
      dsimp only
      rcases top.takes_or_refuses (some slot) with ⟨k, htake⟩ | ⟨fault, hrefuse⟩
      · rw [fill_of_takes htake]
        cases htake with
        | given hfree => exact .leafTaken htoken rfl rfl hfree
      · rw [fill_of_refuses hrefuse]
        exact .leafRefused htoken rfl hrefuse

theorem receive_reduce_of_full {q : Production} {top : Pending ν} {rest : List (Pending ν)}
    (hstack : a.stack = top :: rest) (hq : p.graph.grammar.production? top.production = some q)
    (hfull : top.Free = ∅) (span : Span) : a.receive f p (.reduce top.production span) =
      close f p.graph.grammar q top { a with stack := rest } := by
  rw [receive, reduce, hstack]
  dsimp only
  rw [if_neg (not_not_intro rfl), Pending.firstFree?_eq_none_iff.2 hfull, hq]

theorem close_outcome {q : Production} {top : Pending ν} {rest : List (Pending ν)}
    (hstack : a.stack = top :: rest) (hq : p.graph.grammar.production? top.production = some q)
    (hfull : top.Free = ∅) (span : Span) :
    Outcome f p a (.reduce top.production span)
      (close f p.graph.grammar q top { a with stack := rest }) := by
  have hmade : Makes f p.graph.grammar a.state top q top.filled
      (f.reduce p.graph.grammar q top.span top.filled a.state) :=
    ⟨hq, Pending.children_eq_of_free hfull, rfl⟩
  rw [close]
  cases rest with
  | cons parent rest =>
    dsimp only
    rcases parent.takes_or_refuses top.slot with ⟨k, htake⟩ | ⟨fault, hrefuse⟩
    · rw [fill_of_takes htake]
      exact .nodeTaken hstack rfl hmade htake
    · rw [fill_of_refuses hrefuse]
      exact .nodeRefused hstack rfl hmade hrefuse
  | nil =>
    cases hroot : a.root with
    | none => exact .rooted hstack rfl hmade hroot
    | some node =>
      have hsecond : Outcome f p a (.reduce top.production span) _ :=
        .secondRoot hstack rfl hmade (fun h => by cases hroot.symm.trans h)
      rwa [hroot] at hsecond

theorem reduce_outcome (id : Nat) (span : Span) :
    Outcome f p a (.reduce id span) (a.receive f p (.reduce id span)) := by
  cases hstack : a.stack with
  | nil =>
    rw [receive, reduce, hstack]
    exact .noneOpen hstack
  | cons top rest =>
    by_cases hid : top.production = id
    · subst hid
      cases hfirst : top.firstFree? with
      | some k =>
        rw [receive, reduce, hstack]
        dsimp only
        rw [if_neg (not_not_intro rfl), hfirst]
        exact .missing hstack rfl (Pending.firstFree?_eq_some_iff.1 hfirst)
      | none =>
        have hfull := Pending.firstFree?_eq_none_iff.1 hfirst
        cases hq : p.graph.grammar.production? top.production with
        | none =>
          rw [receive, reduce, hstack]
          dsimp only
          rw [if_neg (not_not_intro rfl), hfirst, hq]
          exact .unmade hstack rfl hfull hq
        | some q =>
          rw [receive_reduce_of_full hstack hq hfull]
          exact close_outcome hstack hq hfull span
    · rw [receive, reduce, hstack]
      dsimp only
      rw [if_pos hid]
      exact .mismatch hstack hid

theorem receive_outcome (f : Factory σ ν) (p : Parsing) (a : Assembly σ ν) (event : Event) :
    Outcome f p a event (a.receive f p event) := by
  cases event with
  | enter n id span slot =>
    rw [receive, enter]
    cases hq : p.graph.grammar.production? id with
    | none => exact .undeclared hq
    | some q => exact .entered hq
  | leaf n token slot => exact leaf_outcome n token slot
  | reduce id span => exact reduce_outcome id span

end Assembly

end GrammarFlow
