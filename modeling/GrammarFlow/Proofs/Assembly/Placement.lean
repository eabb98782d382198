import GrammarFlow.Proofs.Assembly.Numbered
import GrammarFlow.Proofs.Recognition

namespace GrammarFlow

/-- The event without the place of the node that begins. -/
def Event.unplaced : Event → Event
  | .enter n id span _ => .enter n id span none
  | event => event

namespace Pending

variable {ν : Type} (t : Pending ν)

def unplaced : Pending ν := { t with slot := none }

theorem place_unplaced (slot : Option Nat) (node : ν) :
    t.unplaced.place slot node = (t.place slot node).map unplaced := by
  rw [place, place, show t.unplaced.lastFree? = t.lastFree? from rfl]
  cases slot.or t.lastFree? with
  | none => rfl
  | some k =>
    rw [show t.unplaced.children = t.children from rfl]
    dsimp only
    cases t.children[k]? with
    | none => rfl
    | some c => cases c <;> rfl

theorem place_lastFree? (node : ν) : t.place t.lastFree? node = t.place none node := by
  rw [place, place, Option.or_self, Option.none_or]

end Pending

namespace Assembly

variable {σ ν : Type} {f : Factory σ ν} {p : Parsing} {a a' : Assembly σ ν}

def unplaced (a : Assembly σ ν) : Assembly σ ν := { a with stack := a.stack.map Pending.unplaced }

end Assembly

def Receipt.unplaced {σ ν : Type} (r : Receipt σ ν) : Receipt σ ν := ⟨r.assembly.unplaced, r.fault⟩

namespace Assembly

variable {σ ν : Type} {f : Factory σ ν} {p : Parsing} {a a' : Assembly σ ν}

/-- Every pending node belongs in the last free slot of the one around it. -/
def InOrder (a : Assembly σ ν) : Prop :=
  a.stack.IsChain fun t parent => parent.lastFree? = t.slot

def Continues (a : Assembly σ ν) : Event → Prop
  | .enter _ _ _ slot => ∀ parent ∈ a.stack.head?, parent.lastFree? = slot
  | _ => True

/-- Every node of a run begins in order. -/
inductive RunsInOrder (f : Factory σ ν) (p : Parsing) : Assembly σ ν → List Event → Prop
  | nil {a : Assembly σ ν} : RunsInOrder f p a []
  | cons {a : Assembly σ ν} {event : Event} {events : List Event} (h : a.Continues event)
      (hrest : RunsInOrder f p (a.receive f p event).assembly events) :
      RunsInOrder f p a (event :: events)

theorem fill_unplaced (slot : Option Nat) (node : ν) (top : Pending ν) (rest : List (Pending ν)) :
    a.unplaced.fill slot node top.unplaced (rest.map Pending.unplaced) =
      (a.fill slot node top rest).unplaced := by
  rw [fill, fill, Pending.place_unplaced]
  cases top.place slot node <;> rfl

theorem leaf_unplaced (g : Grammar) (tokens : Array Token) (token slot : Nat) :
    a.unplaced.leaf f g tokens token slot = (a.leaf f g tokens token slot).unplaced := by
  obtain ⟨s, stack, root⟩ := a
  rw [leaf, leaf]
  cases tokens[token]? with
  | none => rfl
  | some t =>
    cases stack with
    | nil => rfl
    | cons top rest => exact fill_unplaced (a := ⟨_, top :: rest, root⟩) (some slot) _ top rest

/-- A node that belongs in the last free slot is put there with or without the slot. -/
theorem fill_of_lastFree? {slot : Option Nat} {parent : Pending ν} (h : parent.lastFree? = slot) (node : ν)
    (rest : List (Pending ν)) : a.fill slot node parent rest = a.fill none node parent rest := by
  rw [fill, fill, ← h, Pending.place_lastFree?]

theorem close_unplaced {top : Pending ν} (h : ∀ parent ∈ a.stack.head?, parent.lastFree? = top.slot)
    (g : Grammar) (q : Production) :
    a.unplaced.close f g q top.unplaced = (a.close f g q top).unplaced := by
  obtain ⟨s, stack, root⟩ := a
  cases stack with
  | nil => cases root <;> rfl
  | cons parent rest =>
    -- Both assemblies look for the last free slot, and there the node belongs.
    rw [close, close]
    dsimp only
    rw [fill_of_lastFree? (h parent rfl)]
    exact fill_unplaced (a := ⟨_, parent :: rest, root⟩) none _ parent rest

theorem reduce_unplaced (h : a.InOrder) (g : Grammar) (id : Nat) :
    a.unplaced.reduce f g id = (a.reduce f g id).unplaced := by
  obtain ⟨s, stack, root⟩ := a
  cases stack with
  | nil => rfl
  | cons top rest =>
    rw [reduce, reduce, unplaced, List.map_cons]
    dsimp only
    rw [show top.unplaced.firstFree? = top.firstFree? from rfl]
    by_cases hid : top.production = id
    · have hid' : top.unplaced.production = id := hid
      rw [if_neg (not_not_intro hid), if_neg (not_not_intro hid')]
      cases top.firstFree? with
      | some k => rfl
      | none =>
        cases g.production? id with
        | none => rfl
        | some q => exact close_unplaced (a := ⟨s, rest, root⟩) (List.isChain_cons.1 h).1 g q
    · have hid' : top.unplaced.production ≠ id := hid
      rw [if_pos hid, if_pos hid']
      rfl

theorem receive_unplaced (h : a.InOrder) (event : Event) :
    a.unplaced.receive f p event.unplaced = (a.receive f p event).unplaced := by
  cases event with
  | enter n id span slot =>
    rw [Event.unplaced, receive, receive, enter, enter]
    cases p.graph.grammar.production? id <;> rfl
  | leaf n token slot => exact leaf_unplaced _ _ token slot
  | reduce id span => exact reduce_unplaced h _ id

theorem inOrder_put {top : Pending ν} {rest : List (Pending ν)} {k : Nat} {node : ν} {state : σ}
    {root : Option ν} (h : (top :: rest).IsChain fun t parent => parent.lastFree? = t.slot) :
    InOrder (⟨state, top.put k node :: rest, root⟩ : Assembly σ ν) :=
  List.isChain_cons.2 (List.isChain_cons.1 h)

/-- An event keeps the order of the pending nodes. -/
theorem InOrder.receive (h : a.InOrder) {event : Event} (hevent : a.Continues event) :
    (a.receive f p event).assembly.InOrder := by
  have houtcome := receive_outcome f p a event
  generalize a.receive f p event = r at houtcome
  obtain ⟨state, stack, root⟩ := a
  cases houtcome with
  | entered hq => exact List.isChain_cons.2 ⟨hevent, h⟩
  | undeclared | beyond | loose | leafRefused | noneOpen => exact h
  | leafTaken htoken hstack =>
    subst hstack
    exact inOrder_put h
  | mismatch hstack | missing hstack | unmade hstack | nodeRefused hstack =>
    subst hstack
    exact (List.isChain_cons.1 h).2
  | nodeTaken hstack =>
    subst hstack
    exact inOrder_put (List.isChain_cons.1 h).2
  | rooted | secondRoot => exact .nil

theorem RunsInOrder.receiveAll_unplaced {events : List Event} (h : RunsInOrder f p a events)
    (ha : a.InOrder) : a.unplaced.receiveAll f p (events.map Event.unplaced) =
      (a.receiveAll f p events).map unplaced := by
  induction h with
  | nil => rfl
  | @cons a event events hevent _ ih =>
    have hnext := ih (ha.receive hevent)
    rw [List.map_cons, receiveAll, receiveAll, receive_unplaced ha]
    generalize a.receive f p event = r at hnext
    obtain ⟨a', fault⟩ := r
    cases fault with
    | none => exact hnext
    | some fault => rfl

theorem RunsInOrder.append {xs ys : List Event} (hxs : RunsInOrder f p a xs)
    (hall : a.receiveAll f p xs = .ok a') (hys : RunsInOrder f p a' ys) :
    RunsInOrder f p a (xs ++ ys) := by
  induction hxs with
  | nil =>
    obtain rfl := Except.ok.inj hall
    exact hys
  | @cons a event events hevent _ ih =>
    refine .cons hevent (ih ?_)
    rw [receiveAll] at hall
    split at hall
    · cases hall
    · next a' hreceive =>
      rw [hreceive]
      exact hall

theorem RunsInOrder.of_append {xs ys : List Event} (h : RunsInOrder f p a (xs ++ ys)) :
    RunsInOrder f p a xs := by
  induction xs generalizing a with
  | nil => exact .nil
  | cons event xs ih =>
    cases h with
    | cons hevent hrest => exact .cons hevent (ih hrest)

theorem depth_unplaced (a : Assembly σ ν) : a.unplaced.depth = a.depth := List.length_map _

/-- The slot before those that are filled is the last free one. -/
theorem lastFree?_append (n : Nat) (span : Span) (slot : Option Nat) (left : List (Option ν))
    (nodes : List ν) :
    (⟨n, span, slot, left ++ none :: nodes.map some⟩ : Pending ν).lastFree? = some left.length := by
  rw [Pending.lastFree?_eq_some_iff]
  constructor
  · simp [Pending.Free]
  · intro j hj
    by_contra hlt
    obtain ⟨i, rfl⟩ := Nat.exists_eq_add_of_lt (Nat.lt_of_not_le hlt)
    have hfilled : (left ++ none :: nodes.map some)[left.length + (i + 1)]? = some none := hj
    rw [List.getElem?_append_right (Nat.le_add_right _ _), Nat.add_sub_cancel_left] at hfilled
    simp at hfilled

end Assembly

namespace Parsing.Accepts

open Assembly DerivationTree

variable {σ ν : Type} {f : Factory σ ν} {p : Parsing} {tokens : List Token}

theorem runsInOrder_node (h : p.Accepts tokens) {q : Production} (hq : q ∈ p.grammar.productions)
    {ts : List DerivationTree} {low : Nat} (hts : ForestIsFrom p.grammar ts q.rhs)
    (hlow : low + (forestYield ts).length ≤ tokens.length) {a : Assembly σ ν} {slot : Option Nat}
    (hslot : ∀ parent ∈ a.stack.head?, parent.lastFree? = slot)
    (hforest : ∀ span, RunsInOrder f p
      ⟨a.state, ⟨q.id, span, slot, List.replicate ts.length none⟩ :: a.stack, a.root⟩
      (forestEvents ts low 0)) :
    RunsInOrder f p a ((node q ts).events low slot) := by
  have hq' : p.grammar.production? q.id = some q := h.wellFormed.production?_id hq
  rw [events_node]
  refine .cons hslot ?_
  rw [receive_enter hq', ← length_of_forestIsFrom hts]
  have hall := h.receiveAll_forestEvents (f := f) low hts hlow q.id
    ⟨low, low + (forestYield ts).length⟩ slot [] [] a.state a.stack a.root
  rw [List.append_nil] at hall
  exact (hforest _).append hall (.cons trivial .nil)

mutual

theorem runsInOrder_events (h : p.Accepts tokens) : ∀ {t : DerivationTree} {s : Symbol} {k : Nat}
    {top : Pending ν} (low : Nat), t.IsFrom p.grammar s → low + t.yield.length ≤ tokens.length →
      top.lastFree? = some k → ∀ (state : σ) (rest : List (Pending ν)) (root : Option ν),
        RunsInOrder f p ⟨state, top :: rest, root⟩ (t.events low (some k))
  | .leaf a, _, k, top, low, _, hlow, hslot, state, rest, root => by
    rw [events_leaf]
    exact .cons trivial .nil
  | .node q ts, _, k, top, low, ⟨hq, _, hts⟩, hlow, hslot, state, rest, root => by
    refine h.runsInOrder_node hq hts hlow ?_ fun span => ?_
    · rintro parent hparent
      obtain rfl := Option.some.inj hparent
      exact hslot
    · have hforest := runsInOrder_forestEvents h low hts hlow q.id span (some k) [] [] state
        (top :: rest) root
      rwa [List.map_nil, List.append_nil] at hforest

theorem runsInOrder_forestEvents (h : p.Accepts tokens) : ∀ {ts : List DerivationTree}
    {ss : List Symbol} (low : Nat), ForestIsFrom p.grammar ts ss →
      low + (forestYield ts).length ≤ tokens.length →
        ∀ (n : Nat) (span : Span) (slot : Option Nat) (left : List (Option ν)) (right : List ν)
          (state : σ) (rest : List (Pending ν)) (root : Option ν), RunsInOrder f p
            ⟨state, ⟨n, span, slot, left ++ List.replicate ts.length none ++ right.map some⟩ :: rest, root⟩
            (forestEvents ts low left.length)
  | [], _, low, _, _, n, span, slot, left, right, state, rest, root => by
    rw [forestEvents_nil]
    exact .nil
  | t :: ts, s :: ss, low, ⟨ht, hts⟩, hlow, n, span, slot, left, right, state, rest, root => by
    rw [forestYield_cons, List.length_append] at hlow
    have hbound : low + t.yield.length + (forestYield ts).length ≤ tokens.length := by omega
    have hforest := runsInOrder_forestEvents h (low + t.yield.length) hts hbound n span slot
      (left ++ [none]) right state rest root
    have hall := h.receiveAll_forestEvents (f := f) (low + t.yield.length) hts hbound n span slot
      (left ++ [none]) (right.map some) state rest root
    rw [List.length_append, List.length_singleton] at hforest hall
    rw [forestEvents_cons, List.length_cons, List.replicate_succ, List.append_cons left]
    -- The later children are in their slots by now, and the first one's is the last that is free.
    refine hforest.append hall (runsInOrder_events h low ht (by omega) ?_ _ _ _)
    rw [List.append_assoc (left ++ [none]), List.append_assoc left, ← List.map_append]
    exact lastFree?_append n span slot left _

end

theorem runsInOrder_walk (h : p.Accepts tokens) {t : DerivationTree}
    (ht : t ∈ p.grammar.derivations tokens) (f : Factory σ ν) (state : σ) :
    RunsInOrder f p { state } (t.events 0 none) := by
  obtain ⟨q, ts, rfl, hq, -, hts⟩ := isFrom_nonTerminal.1 ht.1
  have hlow : 0 + (forestYield ts).length ≤ tokens.length := by
    rw [Nat.zero_add]
    exact Nat.le_of_eq ht.2.length_eq.symm
  refine h.runsInOrder_node hq hts hlow nofun fun span => ?_
  have hforest := h.runsInOrder_forestEvents (f := f) 0 hts hlow q.id span none [] [] state [] none
  rwa [List.map_nil, List.append_nil] at hforest

/-- As far as it has come, the walk does the same without slots. -/
theorem receiveAll_take_unplaced (h : p.Accepts tokens) {t : DerivationTree}
    (ht : t ∈ p.grammar.derivations tokens) (f : Factory σ ν) (state : σ) (n : Nat) :
    ∃ a, receiveAll f p { state } ((t.events 0 none).take n) = .ok a ∧
      receiveAll f p { state } (((t.events 0 none).map Event.unplaced).take n) = .ok a.unplaced := by
  have hruns := h.runsInOrder_walk ht f state
  have hall := h.receiveAll_derivation ht f state
  rw [← List.take_append_drop n (t.events 0 none)] at hruns hall
  obtain ⟨a, ha⟩ := exists_of_receiveAll_append hall
  have hunplaced := hruns.of_append.receiveAll_unplaced .nil
  rw [ha, List.map_take] at hunplaced
  exact ⟨a, ha, hunplaced⟩

end Parsing.Accepts

/-- The slots of a walk need not be told. Where every node begins without its slot, no event fails, and
after each of them as many nodes are pending, the factory has had the same calls with the same children,
and the root is the same. -/
theorem unplaced_walk {d : Declaration} {g : Grammar} (hg : d.build = .ok g) {tokens : List Token}
    {p : Parsing} (hp : (Graph.ofGrammar g).parse tokens = .ok p) :
    ∃ events, p.walk = .ok events ∧ ∀ {σ ν : Type} (f : Factory σ ν) (state : σ),
      (∀ n, ∃ a b, ({ state } : Assembly σ ν).receiveAll f p (events.take n) = .ok a ∧
        ({ state } : Assembly σ ν).receiveAll f p ((events.map Event.unplaced).take n) = .ok b ∧
        b.depth = a.depth ∧ b.state = a.state ∧ b.root = a.root) ∧
      (∀ n, ∃ a b, Assembly.receiveAll f.numbered p { state := (state, []) } (events.take n) = .ok a ∧
        Assembly.receiveAll f.numbered p { state := (state, []) }
          ((events.map Event.unplaced).take n) = .ok b ∧ b.record = a.record) ∧
      ∃ b node, ({ state } : Assembly σ ν).receiveAll f p (events.map Event.unplaced) = .ok b ∧
        b.finish = .ok node ∧ p.assemble f state = .ok (node, b.state) := by
  obtain ⟨rfl, h⟩ := Graph.accepts_of_parse hg hp
  obtain ⟨t, ht, hwalk, -⟩ := h.exists_walk
  refine ⟨t.events 0 none, hwalk, fun f state => ⟨fun n => ?_, fun n => ?_, ?_⟩⟩
  · obtain ⟨a, ha, hunplaced⟩ := h.receiveAll_take_unplaced ht f state n
    exact ⟨a, a.unplaced, ha, hunplaced, a.depth_unplaced, rfl, rfl⟩
  · obtain ⟨a, ha, hunplaced⟩ := h.receiveAll_take_unplaced ht f.numbered (state, []) n
    exact ⟨a, a.unplaced, ha, hunplaced, rfl⟩
  · have hunplaced := (h.runsInOrder_walk ht f state).receiveAll_unplaced .nil
    rw [h.receiveAll_derivation ht] at hunplaced
    exact ⟨_, _, hunplaced, rfl, h.assemble_eq ht hwalk f state⟩

theorem threeNumbers_unplaced : sums.build = .ok sumsGrammar ∧
    ∃ p events, (Graph.ofGrammar sumsGrammar).parse threeNumbers = .ok p ∧ p.walk = .ok events ∧
      ∃ a, ({ state := () } : Assembly Unit Tree).receiveAll Tree.factory p
        (events.map Event.unplaced) = .ok a ∧ a.finish.toOption = p.tree.toOption := by
  obtain ⟨p, hp⟩ := Graph.recognizes_iff.1 recognizes_threeNumbers
  obtain ⟨events, hwalk, hall⟩ := unplaced_walk build_sums hp
  obtain ⟨-, -, a, node, ha, hfinish, hassemble⟩ := hall Tree.factory ()
  refine ⟨build_sums, p, events, hp, hwalk, a, ha, ?_⟩
  rw [hfinish, Parsing.tree, hassemble]
  rfl

end GrammarFlow
