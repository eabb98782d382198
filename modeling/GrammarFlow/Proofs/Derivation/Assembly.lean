import GrammarFlow.Hooks
import GrammarFlow.Proofs.Derivation.Fold
import GrammarFlow.Proofs.Derivation.Walk
import GrammarFlow.Tree.Build

namespace GrammarFlow

def Pending.put {ν : Type} (top : Pending ν) (k : Nat) (node : ν) : Pending ν :=
  { top with children := top.children.set k (some node) }

namespace Assembly

variable {σ ν : Type} {f : Factory σ ν} {p : Parsing} {a a' : Assembly σ ν} {state : σ}
  {top : Pending ν} {rest : List (Pending ν)} {root : Option ν} {q : Production} {k : Nat}

theorem receiveAll_cons {event : Event} (h : a.receive f p event = ⟨a', none⟩)
    (events : List Event) : a.receiveAll f p (event :: events) = a'.receiveAll f p events := by
  rw [receiveAll, h]

theorem receiveAll_append {xs : List Event} (h : a.receiveAll f p xs = .ok a') (ys : List Event) :
    a.receiveAll f p (xs ++ ys) = a'.receiveAll f p ys := by
  induction xs generalizing a with
  | nil =>
    obtain rfl := Except.ok.inj h
    rfl
  | cons event xs ih =>
    rw [receiveAll] at h
    rw [List.cons_append, receiveAll]
    split at h
    · cases h
    · exact ih h

theorem receiveAll_eq_foldlM (events : List Event) :
    a.receiveAll f p events = events.foldlM (accept f p) a := by
  induction events generalizing a with
  | nil => rfl
  | cons event events ih =>
    rw [receiveAll, List.foldlM_cons, accept]
    split
    · rfl
    · exact ih

theorem exists_of_receiveAll_append {xs ys : List Event} (h : a.receiveAll f p (xs ++ ys) = .ok a') :
    ∃ b, a.receiveAll f p xs = .ok b := by
  induction xs generalizing a with
  | nil => exact ⟨a, rfl⟩
  | cons event xs ih =>
    rw [List.cons_append, receiveAll] at h
    rw [receiveAll]
    split at h
    · cases h
    · exact ih h

theorem receive_enter (hq : p.grammar.production? q.id = some q) (n : Nat) (span : Span)
    (slot : Option Nat) : a.receive f p (.enter n q.id span slot) =
      ⟨{ a with stack := ⟨q.id, span, slot, List.replicate q.rhs.length none⟩ :: a.stack }, none⟩ := by
  have hq' : p.graph.grammar.production? q.id = some q := hq
  rw [receive, enter, hq', ← List.map_const']

theorem fill_eq (hslot : top.children[k]? = some none) (node : ν) :
    a.fill (some k) node top rest = ⟨{ a with stack := top.put k node :: rest }, none⟩ := by
  have hplace : top.place (some k) node = .ok (top.put k node) := by
    simp only [Pending.place, Option.some_or, hslot, Pending.put]
  rw [fill, hplace]

theorem receive_leaf {token : Token} {t i : Nat} (htoken : p.tokens[i]? = some token)
    (hslot : top.children[k]? = some none) :
    receive f p ⟨state, top :: rest, root⟩ (.leaf t i k) =
      let node := f.leaf p.grammar token ⟨i, i + 1⟩ state
      ⟨⟨node.2, top.put k node.1 :: rest, root⟩, none⟩ := by
  rw [receive, leaf, htoken]
  exact fill_eq hslot _

theorem receive_reduce (hq : p.grammar.production? q.id = some q) (span span' : Span)
    (slot : Option Nat) (nodes : List ν) :
    receive f p ⟨state, ⟨q.id, span, slot, nodes.map some⟩ :: rest, root⟩ (.reduce q.id span') =
      close f p.grammar q ⟨q.id, span, slot, nodes.map some⟩ ⟨state, rest, root⟩ := by
  have hq' : p.graph.grammar.production? q.id = some q := hq
  have hfree : (nodes.map some).findIdx? (·.isNone) = none := by
    rw [List.findIdx?_eq_none_iff]
    simp
  rw [receive, reduce]
  simp only [ne_eq, not_true_eq_false, if_false, Pending.firstFree?, hfree, hq']
  rfl

theorem filled_eq (span : Span) (slot : Option Nat) (nodes : List ν) :
    (⟨q.id, span, slot, nodes.map some⟩ : Pending ν).filled = nodes := by
  simp [Pending.filled]

theorem close_child (hslot : top.children[k]? = some none) (g : Grammar) (span : Span)
    (nodes : List ν) :
    close f g q ⟨q.id, span, some k, nodes.map some⟩ ⟨state, top :: rest, root⟩ =
      let node := f.reduce g q span nodes state
      ⟨⟨node.2, top.put k node.1 :: rest, root⟩, none⟩ := by
  rw [close, filled_eq]
  exact fill_eq hslot _

theorem close_root (g : Grammar) (span : Span) (nodes : List ν) :
    close f g q ⟨q.id, span, none, nodes.map some⟩ ⟨state, [], none⟩ =
      let node := f.reduce g q span nodes state
      ⟨⟨node.2, [], some node.1⟩, none⟩ := by
  rw [close, filled_eq]

end Assembly

namespace Parsing.Accepts

open Assembly DerivationTree

variable {σ ν : Type} {f : Factory σ ν} {p : Parsing} {tokens : List Token} {q : Production}
  {ts : List DerivationTree} {low : Nat} {stack : List (Pending ν)} {root : Option ν}

theorem token_eq (h : p.Accepts tokens) {i : Nat} (hi : i < tokens.length) :
    p.tokens[i]? = some (tokens.getD i default) := by
  rw [← Array.getElem?_toList, h.tokens_eq, List.getD_eq_getElem?_getD,
    List.getElem?_eq_getElem hi]
  rfl

/-- A node is assembled once its children are, with what then comes of its end. -/
theorem receiveAll_node (h : p.Accepts tokens) (hq : q ∈ p.grammar.productions)
    (hlength : ts.length = q.rhs.length) {slot : Option Nat} {state : σ} {a' : Assembly σ ν}
    (hforest : ∀ span, receiveAll f p
      ⟨state, ⟨q.id, span, slot, List.replicate ts.length none⟩ :: stack, root⟩
      (forestEvents ts low 0) = .ok ⟨(foldForest f p.grammar tokens ts low state).2,
        ⟨q.id, span, slot, (foldForest f p.grammar tokens ts low state).1.map some⟩ :: stack, root⟩)
    (hclose : close f p.grammar q ⟨q.id, ⟨low, low + (forestYield ts).length⟩, slot,
      (foldForest f p.grammar tokens ts low state).1.map some⟩
      ⟨(foldForest f p.grammar tokens ts low state).2, stack, root⟩ = ⟨a', none⟩) :
    receiveAll f p ⟨state, stack, root⟩ ((node q ts).events low slot) = .ok a' := by
  have hq' : p.grammar.production? q.id = some q := h.wellFormed.production?_id hq
  rw [events_node, receiveAll_cons (receive_enter hq' _ _ _), ← hlength,
    receiveAll_append (hforest _), receiveAll_cons]
  · rfl
  · rw [receive_reduce hq', hclose]

mutual

/-- The events of a child put its fold into a free slot of the pending node. -/
theorem receiveAll_events (h : p.Accepts tokens) : ∀ {t : DerivationTree} {s : Symbol} {k : Nat}
    {top : Pending ν} (low : Nat), t.IsFrom p.grammar s → low + t.yield.length ≤ tokens.length →
      top.children[k]? = some none →
        ∀ (state : σ) (rest : List (Pending ν)) (root : Option ν),
          receiveAll f p ⟨state, top :: rest, root⟩ (t.events low (some k)) =
            .ok ⟨(t.fold f p.grammar tokens low state).2,
              top.put k (t.fold f p.grammar tokens low state).1 :: rest, root⟩
  | .leaf a, _, k, top, low, _, hlow, hslot, state, rest, root => by
    have htoken : p.tokens[low]? = some (tokens.getD low default) := h.token_eq hlow
    rw [events_leaf, Option.getD_some, receiveAll_cons (receive_leaf htoken hslot), fold]
    rfl
  | .node q ts, _, k, top, low, ⟨hq, _, hts⟩, hlow, hslot, state, rest, root => by
    rw [fold_node]
    refine h.receiveAll_node hq (length_of_forestIsFrom hts) (fun span => ?_) ?_
    · have hforest := receiveAll_forestEvents h low hts hlow q.id span (some k) [] [] state
        (top :: rest) root
      rwa [List.append_nil, List.append_nil] at hforest
    · exact close_child hslot _ _ _

/-- The events of the children from a slot on put their folds into the free slots from there. -/
theorem receiveAll_forestEvents (h : p.Accepts tokens) : ∀ {ts : List DerivationTree}
    {ss : List Symbol} (low : Nat), ForestIsFrom p.grammar ts ss →
      low + (forestYield ts).length ≤ tokens.length →
        ∀ (n : Nat) (span : Span) (slot : Option Nat) (left right : List (Option ν)) (state : σ)
          (rest : List (Pending ν)) (root : Option ν), receiveAll f p
            ⟨state, ⟨n, span, slot, left ++ List.replicate ts.length none ++ right⟩ :: rest, root⟩
            (forestEvents ts low left.length) =
          .ok ⟨(foldForest f p.grammar tokens ts low state).2, ⟨n, span, slot, left ++
            (foldForest f p.grammar tokens ts low state).1.map some ++ right⟩ :: rest, root⟩
  | [], _, low, _, _, n, span, slot, left, right, state, rest, root => by
    rw [forestEvents_nil, foldForest]
    rfl
  | t :: ts, s :: ss, low, ⟨ht, hts⟩, hlow, n, span, slot, left, right, state, rest, root => by
    rw [forestYield_cons, List.length_append] at hlow
    -- The slot of the first child stays free while the later children are assembled.
    have hforest := receiveAll_forestEvents h (low + t.yield.length) hts (by omega) n span slot
      (left ++ [none]) right state rest root
    set after := foldForest f p.grammar tokens ts (low + t.yield.length) state with hafter
    let top : Pending ν := ⟨n, span, slot, left ++ [none] ++ after.1.map some ++ right⟩
    have hslot : top.children[left.length]? = some none := by simp [top]
    have hchild := receiveAll_events h low ht (by omega) hslot after.2 rest root
    have hput : top.put left.length (t.fold f p.grammar tokens low after.2).1 = ⟨n, span, slot,
        left ++ ((t.fold f p.grammar tokens low after.2).1 :: after.1).map some ++ right⟩ := by
      simp [top, Pending.put]
    rw [List.length_append, List.length_singleton, List.append_assoc left, List.singleton_append]
      at hforest
    rw [hput] at hchild
    rw [foldForest_cons, ← hafter, forestEvents_cons, List.length_cons, List.replicate_succ,
      receiveAll_append hforest]
    exact hchild

end

/-- The events of a derivation leave its fold as the root, and the state of the factory after it. -/
theorem receiveAll_derivation (h : p.Accepts tokens) {t : DerivationTree}
    (ht : t ∈ p.grammar.derivations tokens) (f : Factory σ ν) (state : σ) :
    receiveAll f p { state } (t.events 0 none) =
      .ok ⟨(t.fold f p.grammar tokens 0 state).2, [], some (t.fold f p.grammar tokens 0 state).1⟩ := by
  obtain ⟨q, ts, rfl, hq, -, hts⟩ := isFrom_nonTerminal.1 ht.1
  have hlow : 0 + (forestYield ts).length ≤ tokens.length := by
    rw [Nat.zero_add]
    exact Nat.le_of_eq ht.2.length_eq.symm
  rw [fold_node]
  refine h.receiveAll_node hq (length_of_forestIsFrom hts) (fun span => ?_) ?_
  · have hforest := h.receiveAll_forestEvents (f := f) 0 hts hlow q.id span none [] []
      state [] none
    rwa [List.append_nil, List.append_nil] at hforest
  · exact close_root _ _ _

theorem assemble_eq (h : p.Accepts tokens) {t : DerivationTree} (ht : t ∈ p.grammar.derivations tokens)
    (hwalk : p.walk = .ok (t.events 0 none)) (f : Factory σ ν) (state : σ) :
    p.assemble f state = .ok (t.fold f p.grammar tokens 0 state) := by
  rw [assemble, h.replay_eq hwalk, ← receiveAll_eq_foldlM, h.receiveAll_derivation ht]
  rfl

end Parsing.Accepts

end GrammarFlow
