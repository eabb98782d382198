import GrammarFlow.Proofs.Assembly.Frame
import GrammarFlow.Proofs.Assembly.Numbered
import Mathlib.Data.List.Induction

namespace GrammarFlow

/-- A node that has begun and has not ended. -/
structure Opening where
  production : Nat
  span : Span
  slot : Option Nat

def Opening.after (g : Grammar) (outer : List Opening) : Event → List Opening
  | .enter _ id span slot => if (g.production? id).isSome then ⟨id, span, slot⟩ :: outer else outer
  | .leaf _ _ _ => outer
  | .reduce _ _ => outer.tail

/-- The nodes that are open after all events: each reduction ends the last one that has begun. -/
def openings (g : Grammar) (events : List Event) : List Opening := events.foldl (Opening.after g) []

def Pending.opening {ν : Type} (t : Pending ν) : Opening := ⟨t.production, t.span, t.slot⟩

namespace Assembly

variable {σ ν : Type} {f : Factory σ ν} {p : Parsing}

theorem openings_receive (a : Assembly σ ν) (event : Event) :
    (a.receive f p event).assembly.stack.map Pending.opening =
      Opening.after p.graph.grammar (a.stack.map Pending.opening) event := by
  have houtcome := receive_outcome f p a event
  generalize a.receive f p event = r at houtcome
  cases houtcome with
  | entered hq => simp [Opening.after, hq, Pending.opening]
  | undeclared hq => simp [Opening.after, hq]
  | beyond | loose | leafRefused => rfl
  | leafTaken htoken hstack => simp [Opening.after, hstack, Pending.opening, Pending.put]
  | noneOpen hstack | mismatch hstack | missing hstack | unmade hstack | nodeRefused hstack
    | rooted hstack | secondRoot hstack => simp [Opening.after, hstack]
  | nodeTaken hstack => simp [Opening.after, hstack, Pending.opening, Pending.put]

theorem openings_receiveEach (f : Factory σ ν) (p : Parsing) (state : σ) (events : List Event) :
    (receiveEach f p { state } events).stack.map Pending.opening = openings p.graph.grammar events :=
  (List.foldl_hom (fun a : Assembly σ ν => a.stack.map Pending.opening)
    fun a event => (openings_receive a event).symm).symm

def numbered (f : Factory σ ν) (p : Parsing) (state : σ) (events : List Event) :
    Assembly (σ × List (Made ν)) (Nat × ν) :=
  receiveEach f.numbered p { state := (state, []) } events

/-- What an event asks a factory for, and what it hands over. -/
inductive Requests (f : Factory σ ν) (p : Parsing) (opened : List Opening)
    (a : Assembly (σ × List (Made ν)) (Nat × ν)) : Event → Made ν → Prop
  | leaf {n token slot : Nat} {t : Token} (htoken : p.tokens[token]? = some t) :
      Requests f p opened a (.leaf n token slot) ⟨.leaf t ⟨token, token + 1⟩, [],
        (f.leaf p.graph.grammar t ⟨token, token + 1⟩ a.state.1).1⟩
  | reduce {id : Nat} {span : Span} {opening : Opening} {outer : List Opening} {q : Production}
      {top : Pending (Nat × ν)} {rest : List (Pending (Nat × ν))} {children : List (Nat × ν)}
      (hopened : opened = opening :: outer) (hid : opening.production = id)
      (hq : p.graph.grammar.production? id = some q) (hstack : a.stack = top :: rest)
      (hchildren : top.children = children.map some) (hlength : children.length = q.rhs.length)
      (hmade : ∀ x ∈ children, (a.record[x.1]?).map Made.node = some x.2) :
      Requests f p opened a (.reduce id span) ⟨.reduce q opening.span, children.map Prod.fst,
        (f.reduce p.graph.grammar q opening.span (children.map Prod.snd) a.state.1).1⟩

/-- An event makes a node with none left pending. -/
structure Completes (f : Factory σ ν) (p : Parsing) (a : Assembly (σ × List (Made ν)) (Nat × ν))
    (event : Event) : Prop where
  reduces : ∃ id span, event = .reduce id span
  made : (a.receive f.numbered p event).assembly.record.length = a.record.length + 1
  closed : (a.receive f.numbered p event).assembly.stack = []

/-- The numbers of the nodes that have been completed as roots. -/
def completed (f : Factory σ ν) (p : Parsing) (state : σ) (events : List Event) : Set Nat :=
  {k | ∃ before event, before ++ [event] <+: events ∧
    Completes f p (numbered f p state before) event ∧ (numbered f p state before).record.length = k}

def PartOf (a : Assembly (σ × List (Made ν)) (Nat × ν)) (j k : Nat) : Prop :=
  ∃ m, a.record[k]? = some m ∧ j ∈ m.parts

def returned (a : Assembly (σ × List (Made ν)) (Nat × ν)) : List Nat :=
  (a.finish.toOption.map Prod.fst).toList

theorem numbered_concat (state : σ) (events : List Event) (event : Event) :
    numbered f p state (events ++ [event]) =
      ((numbered f p state events).receive f.numbered p event).assembly :=
  receiveEach_concat events event

theorem sized_numbered (f : Factory σ ν) (p : Parsing) (state : σ) (events : List Event) :
    (numbered f p state events).Sized p.graph.grammar :=
  sized_receiveEach f.numbered p (state, []) events

theorem openings_numbered (f : Factory σ ν) (p : Parsing) (state : σ) (events : List Event) :
    (numbered f p state events).stack.map Pending.opening = openings p.graph.grammar events :=
  openings_receiveEach f.numbered p (state, []) events

theorem exists_balanced (f : Factory σ ν) (p : Parsing) (state : σ) (events : List Event) :
    ∃ lost, (numbered f p state events).Balanced lost := by
  refine receiveEach_induction (P := fun a => ∃ lost, a.Balanced lost) ?_ ⟨_, balanced_nil state⟩ events
  rintro a event ⟨lost, h⟩
  obtain ⟨dropped, hdropped, -⟩ := h.receive f p event
  exact ⟨_, hdropped⟩

section

variable {a : Assembly (σ × List (Made ν)) (Nat × ν)} {lost : List Nat}

theorem requests_of_makes (hsized : a.Sized p.graph.grammar) (h : a.Balanced lost) {id : Nat}
    {top : Pending (Nat × ν)} {rest : List (Pending (Nat × ν))} {q : Production}
    {nodes : List (Nat × ν)} {made : (Nat × ν) × σ × List (Made ν)} (hstack : a.stack = top :: rest)
    (hid : top.production = id) (hmade : Makes f.numbered p.graph.grammar a.state top q nodes made)
    (span : Span) : Requests f p (a.stack.map Pending.opening) a (.reduce id span)
      ⟨.reduce q top.span, nodes.map Prod.fst,
        (f.reduce p.graph.grammar q top.span (nodes.map Prod.snd) a.state.1).1⟩ := by
  have hlength : nodes.length = q.rhs.length := by
    obtain ⟨q', hq', hlength⟩ := hsized top (hstack ▸ List.mem_cons_self)
    obtain rfl := Option.some.inj (hmade.declared.symm.trans hq')
    rwa [hmade.full, List.length_map] at hlength
  have htold : ∀ x ∈ nodes, (a.record[x.1]?).map Made.node = some x.2 := fun x hx =>
    h.told x ((hmade.held_perm hstack).mem_iff.2 (List.mem_append_left _ hx))
  have hopened : a.stack.map Pending.opening = top.opening :: rest.map Pending.opening := by
    rw [hstack, List.map_cons]
  exact .reduce hopened hid (hid ▸ hmade.declared) hstack hmade.full hlength htold

/-- An event makes no node, or the one that it asks for. -/
theorem record_receive (hsized : a.Sized p.graph.grammar) (h : a.Balanced lost) (event : Event) :
    (a.receive f.numbered p event).assembly.record = a.record ∨
      ∃ m, (a.receive f.numbered p event).assembly.record = a.record ++ [m] ∧
        Requests f p (a.stack.map Pending.opening) a event m := by
  have houtcome := receive_outcome f.numbered p a event
  generalize a.receive f.numbered p event = r at houtcome
  cases houtcome with
  | entered | undeclared | beyond | noneOpen | mismatch | missing | unmade => exact .inl rfl
  | loose htoken | leafRefused htoken => exact .inr ⟨_, rfl, .leaf htoken⟩
  | leafTaken htoken hstack hmade =>
    subst hmade
    exact .inr ⟨_, rfl, .leaf htoken⟩
  | nodeRefused hstack hid hmade | nodeTaken hstack hid hmade | rooted hstack hid hmade
    | secondRoot hstack hid hmade =>
    have hrequest := requests_of_makes hsized h hstack hid hmade
    obtain ⟨-, -, rfl⟩ := hmade
    exact .inr ⟨_, rfl, hrequest _⟩

end

/-- Every node of a run was made as an event asked for it. -/
theorem exists_request (f : Factory σ ν) (p : Parsing) (state : σ) (events : List Event) {k : Nat}
    {m : Made ν} (hm : (numbered f p state events).record[k]? = some m) :
    ∃ before event, before ++ [event] <+: events ∧
      (numbered f p state before).record = (numbered f p state events).record.take k ∧
      Requests f p (openings p.graph.grammar before) (numbered f p state before) event m := by
  induction events using List.reverseRecOn with
  | nil => cases hm
  | append_singleton events event ih =>
    obtain ⟨lost, hbalanced⟩ := exists_balanced f p state events
    have hstep := record_receive (f := f) (sized_numbered f p state events) hbalanced event
    rw [openings_numbered, ← numbered_concat] at hstep
    have hearlier : (numbered f p state events).record[k]? = some m → ∃ before e,
        before ++ [e] <+: events ++ [event] ∧
        (numbered f p state before).record = (numbered f p state events).record.take k ∧
        Requests f p (openings p.graph.grammar before) (numbered f p state before) e m := by
      intro hm
      obtain ⟨before, e, hbefore, h⟩ := ih hm
      exact ⟨before, e, List.prefix_concat_iff.2 (.inr hbefore), h⟩
    rcases hstep with hsame | ⟨m', hrecord, hrequest⟩
    · rw [hsame] at hm ⊢
      exact hearlier hm
    · rw [hrecord] at hm ⊢
      rcases getElem?_concat_eq_some_iff.1 hm with hm | ⟨rfl, rfl⟩
      · rw [List.take_append_of_le_length (List.getElem?_eq_some_iff.1 hm).1.le]
        exact hearlier hm
      · rw [List.take_left]
        exact ⟨events, event, List.prefix_refl _, rfl, hrequest⟩

section

variable {a : Assembly (σ × List (Made ν)) (Nat × ν)} {event : Event}

theorem root_of_completes (h : Completes f p a event) :
    (a.receive f.numbered p event).assembly.root.map Prod.fst =
      (a.root.map Prod.fst).or (some a.record.length) := by
  obtain ⟨⟨id, span, rfl⟩, hmade, hclosed⟩ := h
  have houtcome := receive_outcome f.numbered p a (.reduce id span)
  generalize a.receive f.numbered p (.reduce id span) = r at houtcome hmade hclosed
  cases houtcome with
  | noneOpen | mismatch | missing | unmade => exact absurd hmade (Nat.succ_ne_self _).symm
  | nodeRefused | nodeTaken => cases hclosed
  | rooted hstack hid hmakes hroot =>
    obtain ⟨-, -, rfl⟩ := hmakes
    rw [hroot]
    rfl
  | secondRoot hstack hid hmakes hroot =>
    obtain ⟨x, hx⟩ := Option.ne_none_iff_exists'.1 hroot
    rw [hx]
    rfl

theorem root_of_not_completes (h : ¬ Completes f p a event) :
    (a.receive f.numbered p event).assembly.root = a.root := by
  have hcompletes : (∃ id span, event = .reduce id span) → _ → _ → Completes f p a event :=
    fun hreduces hmade hclosed => ⟨hreduces, hmade, hclosed⟩
  have houtcome := receive_outcome f.numbered p a event
  generalize a.receive f.numbered p event = r at houtcome hcompletes
  cases houtcome with
  | rooted hstack hid hmakes hroot =>
    obtain ⟨-, -, rfl⟩ := hmakes
    exact absurd (hcompletes ⟨_, _, rfl⟩ List.length_append rfl) h
  | entered | undeclared | beyond | loose | leafRefused | leafTaken | noneOpen | mismatch | missing
    | unmade | nodeRefused | nodeTaken | secondRoot => rfl

end

theorem completed_nil (state : σ) : completed f p state [] = ∅ := by
  rw [Set.eq_empty_iff_forall_notMem]
  rintro k ⟨before, event, hbefore, -⟩
  simp at hbefore

theorem mem_completed_concat_iff {state : σ} {events : List Event} {event : Event} {k : Nat} :
    k ∈ completed f p state (events ++ [event]) ↔ k ∈ completed f p state events ∨
      Completes f p (numbered f p state events) event ∧
        (numbered f p state events).record.length = k := by
  constructor
  · rintro ⟨before, e, hbefore, h⟩
    rcases List.prefix_concat_iff.1 hbefore with heq | hbefore
    · obtain ⟨rfl, hevent⟩ := List.append_inj' heq rfl
      obtain rfl := List.singleton_inj.1 hevent
      exact .inr h
    · exact .inl ⟨before, e, hbefore, h⟩
  · rintro (⟨before, e, hbefore, h⟩ | h)
    · exact ⟨before, e, List.prefix_concat_iff.2 (.inr hbefore), h⟩
    · exact ⟨events, event, List.prefix_refl _, h⟩

theorem root_lt_length (f : Factory σ ν) (p : Parsing) (state : σ) (events : List Event) {k : Nat}
    (hk : (numbered f p state events).root.map Prod.fst = some k) :
    k < (numbered f p state events).record.length := by
  obtain ⟨lost, hbalanced⟩ := exists_balanced f p state events
  obtain ⟨x, hx, rfl⟩ := Option.map_eq_some_iff.1 hk
  exact hbalanced.lt_length (List.mem_append_right _ (hx ▸ List.mem_singleton_self x))

/-- The root is the node that was completed first. -/
theorem root_spec (f : Factory σ ν) (p : Parsing) (state : σ) (events : List Event) :
    ((numbered f p state events).root.map Prod.fst = none → completed f p state events = ∅) ∧
      ∀ k, (numbered f p state events).root.map Prod.fst = some k →
        IsLeast (completed f p state events) k := by
  -- From the right: a node that is completed later has a greater number than the root.
  induction events using List.reverseRecOn with
  | nil => exact ⟨fun _ => completed_nil state, nofun⟩
  | append_singleton events event ih =>
    by_cases h : Completes f p (numbered f p state events) event
    · rw [numbered_concat, root_of_completes h]
      cases hroot : (numbered f p state events).root.map Prod.fst with
      | none =>
        have hnone := ih.1 hroot
        refine ⟨nofun, fun k hk => ?_⟩
        obtain rfl := Option.some.inj hk
        refine ⟨mem_completed_concat_iff.2 (.inr ⟨h, rfl⟩), fun j hj => ?_⟩
        rcases mem_completed_concat_iff.1 hj with hj | ⟨-, rfl⟩
        · exact absurd (hnone ▸ hj) (Set.notMem_empty j)
        · exact Nat.le_refl _
      | some first =>
        have hfirst := ih.2 first hroot
        refine ⟨nofun, fun k hk => ?_⟩
        obtain rfl := Option.some.inj hk
        refine ⟨mem_completed_concat_iff.2 (.inl hfirst.1), fun j hj => ?_⟩
        rcases mem_completed_concat_iff.1 hj with hj | ⟨-, rfl⟩
        · exact hfirst.2 hj
        · exact (root_lt_length f p state events hroot).le
    · have hsame : completed f p state (events ++ [event]) = completed f p state events := by
        ext k
        rw [mem_completed_concat_iff]
        exact or_iff_left fun hk => h hk.1
      rw [numbered_concat, root_of_not_completes h, hsame]
      exact ih

theorem balanced_receiveAll {a b : Assembly (σ × List (Made ν)) (Nat × ν)} {lost : List Nat}
    (h : a.Balanced lost) {events : List Event} (hall : a.receiveAll f.numbered p events = .ok b) :
    b.Balanced lost ∧ a.receiveEach f.numbered p events = b := by
  induction events generalizing a with
  | nil =>
    obtain rfl := Except.ok.inj hall
    exact ⟨h, rfl⟩
  | cons event events ih =>
    obtain ⟨dropped, hdropped, hnone⟩ := h.receive f p event
    rw [receiveAll] at hall
    split at hall
    · cases hall
    · next a' hreceive =>
      rw [hreceive] at hdropped hnone
      rw [hnone rfl, List.append_nil] at hdropped
      have hrest := ih hdropped hall
      rw [receiveEach, List.foldl_cons, hreceive]
      exact hrest

/-- Where every node but one has been handed over for a later one, all are below that one. -/
theorem reflTransGen_partOf {a : Assembly (σ × List (Made ν)) (Nat × ν)} {root : Nat}
    (hshared : ∀ j < a.record.length, j ∈ a.handed ∨ j = root)
    (holder : ∀ (k : Nat) (m : Made ν), a.record[k]? = some m → ∀ j ∈ m.parts, j < k) {j : Nat}
    (hj : j < a.record.length) : Relation.ReflTransGen a.PartOf j root := by
  rcases hshared j hj with hhanded | rfl
  · obtain ⟨m, hm, hpart⟩ := List.mem_flatMap.1 hhanded
    obtain ⟨k, hk⟩ := List.mem_iff_getElem?.1 hm
    have hjk := holder k m hk j hpart
    have hlt := (List.getElem?_eq_some_iff.1 hk).1
    exact .head ⟨m, hk, hpart⟩ (reflTransGen_partOf hshared holder hlt)
  · exact .refl
termination_by a.record.length - j

/-- What is true of the numbered assembly `a` and of the assembly `b` of the factory itself, after events
of any kind. -/
structure Conserves (f : Factory σ ν) (p : Parsing) (state : σ) (events : List Event)
    (a : Assembly (σ × List (Made ν)) (Nat × ν)) (b : Assembly σ ν) : Prop where
  /-- Without the numbers, the assemblies are the same. -/
  erased : a.map Prod.fst Prod.snd = b
  /-- The pending nodes are those that have begun and have not ended. -/
  pending : b.stack.map Pending.opening = openings p.graph.grammar events
  /-- Every node was made for an event, with the span and the children that were then at hand. -/
  requested : ∀ (k : Nat) (m : Made ν), a.record[k]? = some m → ∃ before event,
    before ++ [event] <+: events ∧ (numbered f p state before).record = a.record.take k ∧
      Requests f p (openings p.graph.grammar before) (numbered f p state before) event m
  /-- A node is handed over for a later one. -/
  older : ∀ j k, a.PartOf j k → j < k
  /-- No node is handed over twice, or handed over and returned. -/
  used_once : (a.handed ++ a.returned).Nodup
  /-- Where nothing fails and a root is returned, all nodes are in its tree. -/
  used_all : ∀ c node, ({ state } : Assembly σ ν).receiveAll f p events = .ok c → c.finish = .ok node →
    ∃ root, (a.record[root]?).map Made.node = some node ∧
      (a.handed ++ [root]).Perm (List.range a.record.length) ∧
      ∀ j < a.record.length, Relation.ReflTransGen a.PartOf j root
  /-- What is returned, or why nothing is, is told by the pending nodes and by the first completed root. -/
  unbalanced_iff : ∀ n, b.finish = .error (.unbalancedTree n) ↔ b.stack ≠ [] ∧ n = b.depth
  noRoot_iff : b.finish = .error .noRoot ↔ b.stack = [] ∧ completed f p state events = ∅
  root_iff : ∀ node, b.finish = .ok node ↔ b.stack = [] ∧
    ∃ k, IsLeast (completed f p state events) k ∧ (a.record[k]?).map Made.node = some node

theorem finish_eq_ok_iff {τ μ : Type} {a : Assembly τ μ} {x : μ} :
    a.finish = .ok x ↔ a.stack = [] ∧ a.root = some x := by
  obtain ⟨s, stack, root⟩ := a
  cases stack with
  | nil => cases root <;> simp [finish]
  | cons top rest => simp [finish]

theorem finish_eq_noRoot_iff {τ μ : Type} {a : Assembly τ μ} :
    a.finish = .error .noRoot ↔ a.stack = [] ∧ a.root = none := by
  obtain ⟨s, stack, root⟩ := a
  cases stack with
  | nil => cases root <;> simp [finish]
  | cons top rest => simp [finish]

theorem finish_eq_unbalancedTree_iff {τ μ : Type} {a : Assembly τ μ} {n : Nat} :
    a.finish = .error (.unbalancedTree n) ↔ a.stack ≠ [] ∧ n = a.depth := by
  obtain ⟨s, stack, root⟩ := a
  cases stack with
  | nil => cases root <;> simp [finish]
  | cons top rest => simp [finish, eq_comm]

theorem held_of_finish {τ μ : Type} {a : Assembly τ μ} {x : μ} (h : a.finish = .ok x) :
    a.held = [x] := by
  obtain ⟨hstack, hroot⟩ := finish_eq_ok_iff.1 h
  rw [held, hstack, hroot]
  rfl

theorem Balanced.nodup_returned {a : Assembly (σ × List (Made ν)) (Nat × ν)} {lost : List Nat}
    (h : a.Balanced lost) : (a.handed ++ a.returned).Nodup := by
  have hall := h.shared.nodup_iff.2 List.nodup_range
  have hreturned : a.returned.Sublist (a.held.map Prod.fst ++ lost) := by
    rw [returned]
    cases hfinish : a.finish with
    | error e => exact List.nil_sublist _
    | ok x =>
      rw [held_of_finish hfinish]
      exact List.sublist_append_left [x.1] lost
  exact hall.sublist (hreturned.append_left _)

theorem exists_numbered_of_receiveAll {state : σ} {events : List Event} {b : Assembly σ ν}
    (hall : ({ state } : Assembly σ ν).receiveAll f p events = .ok b) :
    ∃ a, receiveAll f.numbered p { state := (state, []) } events = .ok a ∧
      b = a.map Prod.fst Prod.snd := by
  have hmap : ({ state } : Assembly σ ν).receiveAll f p events =
      (receiveAll f.numbered p { state := (state, []) } events).map (map Prod.fst Prod.snd) :=
    receiveAll_map f.numbered_covers p { state := (state, []) } events
  rw [hall] at hmap
  cases hrun : receiveAll f.numbered p { state := (state, []) } events with
  | error e =>
    rw [hrun] at hmap
    cases hmap
  | ok a =>
    rw [hrun] at hmap
    exact ⟨a, rfl, Except.ok.inj hmap⟩

/-- The nodes of a run that does not fail are those of the tree of its root. -/
theorem exists_root_of_receiveAll {state : σ} {events : List Event} {b : Assembly σ ν} {node : ν}
    (hall : ({ state } : Assembly σ ν).receiveAll f p events = .ok b) (hfinish : b.finish = .ok node) :
    ∃ root, ((numbered f p state events).record[root]?).map Made.node = some node ∧
      ((numbered f p state events).handed ++ [root]).Perm
        (List.range (numbered f p state events).record.length) := by
  obtain ⟨a, hrun, rfl⟩ := exists_numbered_of_receiveAll hall
  obtain ⟨hbalanced, hsame⟩ := balanced_receiveAll (balanced_nil state) hrun
  obtain ⟨x, hroot, rfl⟩ := exists_of_finish_map a hfinish
  have hheld := held_of_finish hroot
  have hshared := hbalanced.shared
  rw [hheld, List.append_nil] at hshared
  rw [numbered, hsame]
  exact ⟨x.1, hbalanced.told x (hheld ▸ List.mem_singleton_self x), hshared⟩

theorem root_eq_some_iff {state : σ} {events : List Event} {node : ν} :
    (receiveEach f p { state } events).root = some node ↔
      ∃ k, IsLeast (completed f p state events) k ∧
        ((numbered f p state events).record[k]?).map Made.node = some node := by
  obtain ⟨lost, hbalanced⟩ := exists_balanced f p state events
  obtain ⟨hnone, hleast⟩ := root_spec f p state events
  have hroot : (receiveEach f p { state } events).root =
      (numbered f p state events).root.map Prod.snd := by
    rw [← receiveEach_numbered]
    rfl
  have htold : ∀ x, (numbered f p state events).root = some x →
      ((numbered f p state events).record[x.1]?).map Made.node = some x.2 := fun x hx =>
    hbalanced.told x (List.mem_append_right _ (hx ▸ List.mem_singleton_self x))
  rw [hroot]
  cases h : (numbered f p state events).root with
  | none =>
    rw [h] at hnone
    refine ⟨nofun, ?_⟩
    rintro ⟨k, hk, -⟩
    exact absurd (hnone rfl ▸ hk.1) (Set.notMem_empty k)
  | some x =>
    have hx := hleast x.1 (by rw [h]; rfl)
    constructor
    · intro hnode
      exact ⟨x.1, hx, (htold x h).trans hnode⟩
    · rintro ⟨k, hk, hnode⟩
      obtain rfl := hx.unique hk
      exact (htold x h).symm.trans hnode

theorem root_eq_none_iff {state : σ} {events : List Event} :
    (receiveEach f p { state } events).root = none ↔ completed f p state events = ∅ := by
  constructor
  · intro h
    refine (root_spec f p state events).1 ?_
    rw [← receiveEach_numbered, map, Option.map_eq_none_iff] at h
    exact congrArg (Option.map Prod.fst) h
  · intro h
    by_contra hroot
    obtain ⟨node, hnode⟩ := Option.ne_none_iff_exists'.1 hroot
    obtain ⟨k, hk, -⟩ := root_eq_some_iff.1 hnode
    exact absurd (h ▸ hk.1) (Set.notMem_empty k)

end Assembly

/-- After any events whatever, with or without faults: each node that a factory was asked for has a child
for every symbol of its production, in the order of the slots, and the span with which it was entered; no
node has been used twice; the first completed root is returned once no node is pending; and if nothing
failed, its tree is made of all the nodes. -/
theorem nodes_conserved {σ ν : Type} (f : Factory σ ν) (p : Parsing) (state : σ) (events : List Event) :
    Assembly.Conserves f p state events (Assembly.numbered f p state events)
      (Assembly.receiveEach f p { state } events) := by
  obtain ⟨lost, hbalanced⟩ := Assembly.exists_balanced f p state events
  refine ⟨Assembly.receiveEach_numbered f p state events, Assembly.openings_receiveEach f p state events,
    fun k m => Assembly.exists_request f p state events, ?_, hbalanced.nodup_returned, ?_,
    fun n => Assembly.finish_eq_unbalancedTree_iff, ?_, ?_⟩
  · rintro j k ⟨m, hm, hj⟩
    exact hbalanced.older k m hm j hj
  · intro c node hall hfinish
    obtain ⟨root, hnode, hshared⟩ := Assembly.exists_root_of_receiveAll hall hfinish
    refine ⟨root, hnode, hshared, fun j hj => ?_⟩
    refine Assembly.reflTransGen_partOf (fun i hi => ?_) hbalanced.older hj
    have hmem := hshared.mem_iff.2 (List.mem_range.2 hi)
    rwa [List.mem_append, List.mem_singleton] at hmem
  · rw [Assembly.finish_eq_noRoot_iff, Assembly.root_eq_none_iff]
  · intro node
    rw [Assembly.finish_eq_ok_iff, Assembly.root_eq_some_iff]

end GrammarFlow
