import GrammarFlow.Proofs.Assembly.Outcome

namespace GrammarFlow

namespace Pending

variable {μ ν : Type} (node : μ → ν) (t : Pending μ)

def map : Pending ν := ⟨t.production, t.span, t.slot, t.children.map (Option.map node)⟩

theorem lastFree?_map : (t.map node).lastFree? = t.lastFree? := by
  simp [lastFree?, map, Option.any_map]

theorem firstFree?_map : (t.map node).firstFree? = t.firstFree? := by
  have hnone : (fun c : Option ν => c.isNone) ∘ Option.map node = fun c : Option μ => c.isNone := by
    funext c
    exact Option.isNone_map
  rw [firstFree?, firstFree?, map, List.findIdx?_map, hnone]

theorem filled_map : (t.map node).filled = t.filled.map node := by
  simp [filled, map, List.filterMap_map, List.map_filterMap]

theorem place_map (slot : Option Nat) (x : μ) :
    (t.map node).place slot (node x) = (t.place slot x).map (map node) := by
  rw [place, place, lastFree?_map]
  cases slot.or t.lastFree? with
  | none => simp [map, Except.map]
  | some k =>
    have hk : (t.map node).children[k]? = t.children[k]?.map (Option.map node) := List.getElem?_map
    dsimp only
    rw [hk]
    cases t.children[k]? with
    | none => simp [map, Except.map]
    | some c =>
      cases c with
      | none => simp [map, Except.map, List.map_set]
      | some y => rfl

end Pending

section

variable {τ μ σ ν : Type}

/-- `f'` makes the nodes that `f` makes, with additions of its own. -/
structure Factory.Covers (f' : Factory τ μ) (f : Factory σ ν) (state : τ → σ) (node : μ → ν) : Prop where
  leaf_eq : ∀ g t span s, (f'.leaf g t span s).map node state = f.leaf g t span (state s)
  reduce_eq : ∀ g q span nodes s,
    (f'.reduce g q span nodes s).map node state = f.reduce g q span (nodes.map node) (state s)

variable (state : τ → σ) (node : μ → ν)

def Assembly.map (a : Assembly τ μ) : Assembly σ ν :=
  ⟨state a.state, a.stack.map (Pending.map node), a.root.map node⟩

def Receipt.map (r : Receipt τ μ) : Receipt σ ν := ⟨r.assembly.map state node, r.fault⟩

namespace Assembly

variable {state node} {f' : Factory τ μ} {f : Factory σ ν} (h : f'.Covers f state node)
  (p : Parsing) (a : Assembly τ μ)

theorem fill_map (slot : Option Nat) (x : μ) (top : Pending μ) (rest : List (Pending μ)) :
    (a.map state node).fill slot (node x) (top.map node) (rest.map (Pending.map node)) =
      (a.fill slot x top rest).map state node := by
  rw [fill, fill, Pending.place_map]
  cases top.place slot x <;> rfl

include h

theorem leaf_map (g : Grammar) (tokens : Array Token) (token slot : Nat) :
    (a.map state node).leaf f g tokens token slot = (a.leaf f' g tokens token slot).map state node := by
  obtain ⟨s, stack, root⟩ := a
  cases htoken : tokens[token]? with
  | none =>
    rw [leaf, leaf, htoken]
    rfl
  | some t =>
    rcases hmade : f'.leaf g t ⟨token, token + 1⟩ s with ⟨x, s'⟩
    have hmade' : f.leaf g t ⟨token, token + 1⟩ (state s) = (node x, state s') := by
      rw [← h.leaf_eq, hmade]
      rfl
    simp only [leaf, htoken, map, hmade, hmade']
    cases stack with
    | nil => rfl
    | cons top rest => exact fill_map ⟨s', top :: rest, root⟩ (some slot) x top rest

theorem close_map (g : Grammar) (q : Production) (top : Pending μ) :
    (a.map state node).close f g q (top.map node) = (a.close f' g q top).map state node := by
  obtain ⟨s, stack, root⟩ := a
  rcases hmade : f'.reduce g q top.span top.filled s with ⟨x, s'⟩
  have hmade' : f.reduce g q (top.map node).span (top.map node).filled (state s) = (node x, state s') := by
    rw [Pending.filled_map, Pending.map, ← h.reduce_eq, hmade]
    rfl
  simp only [close, map, hmade, hmade']
  cases stack with
  | nil => cases root <;> rfl
  | cons parent rest => exact fill_map ⟨s', parent :: rest, root⟩ top.slot x parent rest

theorem reduce_map (g : Grammar) (id : Nat) :
    (a.map state node).reduce f g id = (a.reduce f' g id).map state node := by
  obtain ⟨s, stack, root⟩ := a
  rw [reduce, reduce]
  cases stack with
  | nil => rfl
  | cons top rest =>
    rw [map, List.map_cons]
    dsimp only
    rw [Pending.firstFree?_map]
    by_cases hid : top.production = id
    · have hid' : (top.map node).production = id := hid
      rw [if_neg (not_not_intro hid), if_neg (not_not_intro hid')]
      cases top.firstFree? with
      | some k => rfl
      | none =>
        cases g.production? id with
        | none => rfl
        | some q => exact close_map h ⟨s, rest, root⟩ g q top
    · have hid' : (top.map node).production ≠ id := hid
      rw [if_pos hid, if_pos hid']
      rfl

theorem receive_map (event : Event) :
    (a.map state node).receive f p event = (a.receive f' p event).map state node := by
  cases event with
  | enter n id span slot =>
    rw [receive, receive, enter, enter]
    cases p.graph.grammar.production? id with
    | none => rfl
    | some q => simp [map, Receipt.map, Pending.map]
  | leaf n token slot => exact leaf_map h a _ _ token slot
  | reduce id span => exact reduce_map h a _ id

theorem receiveEach_map (events : List Event) :
    (a.map state node).receiveEach f p events = (a.receiveEach f' p events).map state node := by
  induction events generalizing a with
  | nil => rfl
  | cons event events ih =>
    have hstep : ((a.map state node).receive f p event).assembly =
        (a.receive f' p event).assembly.map state node := by
      rw [receive_map h]
      rfl
    have hrun := ih (a.receive f' p event).assembly
    rw [← hstep] at hrun
    exact hrun

theorem receiveAll_map (events : List Event) :
    (a.map state node).receiveAll f p events = (a.receiveAll f' p events).map (map state node) := by
  induction events generalizing a with
  | nil => rfl
  | cons event events ih =>
    rw [receiveAll, receiveAll, receive_map h]
    obtain ⟨a', fault⟩ := a.receive f' p event
    cases fault with
    | none => exact ih a'
    | some fault => rfl

omit h in
theorem exists_of_finish_map {x : ν} (hfinish : (a.map state node).finish = .ok x) :
    ∃ y, a.finish = .ok y ∧ node y = x := by
  obtain ⟨s, stack, root⟩ := a
  cases stack with
  | nil =>
    cases root with
    | none => cases hfinish
    | some y => exact ⟨y, rfl, Except.ok.inj hfinish⟩
  | cons top rest => cases hfinish

end Assembly

end

end GrammarFlow
