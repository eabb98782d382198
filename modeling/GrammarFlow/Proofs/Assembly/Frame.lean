import GrammarFlow.Proofs.Assembly.Outcome

namespace GrammarFlow

namespace Assembly

variable {σ ν : Type}

inductive LeafFault (p : Parsing) (a : Assembly σ ν) (token slot : Nat) : DerivationError → Prop
  | beyond (h : p.tokens.size ≤ token) : LeafFault p a token slot (.tokenOutOfRange token p.tokens.size)
  | loose (htoken : token < p.tokens.size) (h : a.stack = []) :
      LeafFault p a token slot (.emptyStack .leaf)
  | refused {top : Pending ν} {rest : List (Pending ν)} {fault : DerivationError}
      (htoken : token < p.tokens.size) (h : a.stack = top :: rest)
      (hrefuse : top.Refuses (some slot) fault) : LeafFault p a token slot fault

inductive ReduceFault (a : Assembly σ ν) (id : Nat) : DerivationError → Prop
  | noneOpen (h : a.stack = []) : ReduceFault a id (.emptyStack .reduce)
  | mismatch {top : Pending ν} {rest : List (Pending ν)} (h : a.stack = top :: rest)
      (hid : top.production ≠ id) : ReduceFault a id (.productionMismatch top.production id)
  | missing {top : Pending ν} {rest : List (Pending ν)} {k : Nat} (h : a.stack = top :: rest)
      (hid : top.production = id) (hk : IsLeast top.Free k) : ReduceFault a id (.missingChild id k)
  | refused {top parent : Pending ν} {rest : List (Pending ν)} {fault : DerivationError}
      (h : a.stack = top :: parent :: rest) (hid : top.production = id) (hfull : top.Free = ∅)
      (hrefuse : parent.Refuses top.slot fault) : ReduceFault a id fault
  | secondRoot {top : Pending ν} (h : a.stack = [top]) (hid : top.production = id)
      (hfull : top.Free = ∅) (hroot : a.root ≠ none) : ReduceFault a id (.unbalancedTree 0)

/-- A leaf either fails, with the pending nodes as they were, or fills its slot in the innermost one. -/
structure LeafFrame (f : Factory σ ν) (p : Parsing) (a : Assembly σ ν) (token slot : Nat)
    (r : Receipt σ ν) : Prop where
  fault_iff : ∀ fault, r.fault = some fault ↔ LeafFault p a token slot fault
  root_eq : r.assembly.root = a.root
  unchanged : r.fault ≠ none → r.assembly.stack = a.stack
  fills : r.fault = none → ∃ t top rest top', p.tokens[token]? = some t ∧ a.stack = top :: rest ∧
    top.Fills slot (f.leaf p.graph.grammar t ⟨token, token + 1⟩ a.state).1 top' ∧
      r.assembly.stack = top' :: rest

/-- A reduction either fails, and of the pending nodes only the innermost is lost, or it fills a slot in
the next one, or it makes the root. -/
structure ReduceFrame (f : Factory σ ν) (p : Parsing) (a : Assembly σ ν) (id : Nat)
    (r : Receipt σ ν) : Prop where
  fault_iff : ∀ fault, r.fault = some fault ↔ ReduceFault a id fault
  unchanged : a.stack = [] → r.assembly = a
  popped : ∀ {top rest}, a.stack = top :: rest → r.fault ≠ none →
    r.assembly.stack = rest ∧ r.assembly.root = a.root
  fills : ∀ {top parent rest}, a.stack = top :: parent :: rest → r.fault = none →
    r.assembly.root = a.root ∧ ∃ q nodes made k parent',
      Makes f p.graph.grammar a.state top q nodes made ∧ parent.Takes top.slot k ∧
        parent.Fills k made.1 parent' ∧ r.assembly.stack = parent' :: rest
  roots : ∀ {top}, a.stack = [top] → r.fault = none → a.root = none ∧ r.assembly.stack = [] ∧
    ∃ q nodes made, Makes f p.graph.grammar a.state top q nodes made ∧ r.assembly.root = some made.1

/-- Every pending node has a slot for each symbol of its production. -/
def Sized (g : Grammar) (a : Assembly σ ν) : Prop :=
  ∀ t ∈ a.stack, ∃ q, g.production? t.production = some q ∧ t.children.length = q.rhs.length

variable {f : Factory σ ν} {p : Parsing} {a : Assembly σ ν}

theorem Makes.free_eq {g : Grammar} {state : σ} {top : Pending ν} {q : Production} {nodes : List ν}
    {made : ν × σ} (h : Makes f g state top q nodes made) : top.Free = ∅ := by
  rw [Set.eq_empty_iff_forall_notMem]
  intro k hk
  have hnone : (nodes.map some)[k]? = some none := h.full ▸ hk
  rw [List.getElem?_map, Option.map_eq_some_iff] at hnone
  obtain ⟨node, -, hnode⟩ := hnone
  cases hnode

theorem Sized.put {g : Grammar} {top : Pending ν} {rest : List (Pending ν)} {k : Nat} {node : ν}
    {state : σ} {root : Option ν} (h : ∀ t ∈ top :: rest, ∃ q, g.production? t.production = some q ∧
      t.children.length = q.rhs.length) : Sized g ⟨state, top.put k node :: rest, root⟩ := by
  intro t ht
  rcases List.mem_cons.1 ht with rfl | ht
  · obtain ⟨q, hq, hlength⟩ := h top List.mem_cons_self
    exact ⟨q, hq, List.length_set.trans hlength⟩
  · exact h t (List.mem_cons_of_mem top ht)

theorem Sized.receive (h : a.Sized p.graph.grammar) (event : Event) :
    (a.receive f p event).assembly.Sized p.graph.grammar := by
  have houtcome := receive_outcome f p a event
  generalize a.receive f p event = r at houtcome
  -- Nodes leave the stack from the front, so that the others are among those before.
  have hrest : ∀ {top rest}, a.stack = top :: rest → ∀ t ∈ rest, t ∈ a.stack := by
    intro top rest hstack t ht
    rw [hstack]
    exact List.mem_cons_of_mem top ht
  have hinner : ∀ {top parent rest}, a.stack = top :: parent :: rest → ∀ t ∈ parent :: rest,
      t ∈ a.stack := hrest
  cases houtcome with
  | @entered n id span slot q hq =>
    intro t ht
    rcases List.mem_cons.1 ht with rfl | ht
    · exact ⟨q, hq, List.length_map _⟩
    · exact h t ht
  | undeclared | beyond | loose | leafRefused | noneOpen => exact h
  | leafTaken _ hstack => exact .put (hstack ▸ h)
  | mismatch hstack | missing hstack | unmade hstack => exact fun t ht => h t (hrest hstack t ht)
  | nodeRefused hstack => exact fun t ht => h t (hrest hstack t ht)
  | nodeTaken hstack => exact .put fun t ht => h t (hrest hstack t ht)
  | rooted | secondRoot => exact nofun

theorem sized_receiveEach (f : Factory σ ν) (p : Parsing) (state : σ) (events : List Event) :
    (receiveEach f p { state } events).Sized p.graph.grammar :=
  receiveEach_induction (fun _ event h => h.receive event) nofun events

theorem LeafFault.fault_eq {n token slot : Nat} {fault : DerivationError}
    (h : LeafFault p a token slot fault) :
    (a.receive f p (.leaf n token slot)).fault = some fault := by
  rw [receive, leaf]
  cases h with
  | beyond h => rw [Array.getElem?_eq_none h]
  | loose htoken h => rw [Array.getElem?_eq_getElem htoken, h]
  | refused htoken h hrefuse =>
    rw [Array.getElem?_eq_getElem htoken, h]
    dsimp only
    rw [fill_of_refuses hrefuse]

theorem LeafFault.of_fault_eq {n token slot : Nat} {fault : DerivationError}
    (h : (a.receive f p (.leaf n token slot)).fault = some fault) : LeafFault p a token slot fault := by
  have houtcome := receive_outcome f p a (.leaf n token slot)
  generalize a.receive f p (.leaf n token slot) = r at h houtcome
  have hlt : ∀ {t}, p.tokens[token]? = some t → token < p.tokens.size :=
    fun htoken => (Array.getElem?_eq_some_iff.1 htoken).1
  cases houtcome with
  | beyond htoken =>
    cases h
    exact .beyond htoken
  | loose htoken hstack =>
    cases h
    exact .loose (hlt htoken) hstack
  | leafRefused htoken hstack hrefuse =>
    cases h
    exact .refused (hlt htoken) hstack hrefuse
  | leafTaken => cases h

theorem leaf_frame (n token slot : Nat) :
    LeafFrame f p a token slot (a.receive f p (.leaf n token slot)) := by
  have hfault : ∀ fault, (a.receive f p (.leaf n token slot)).fault = some fault ↔
      LeafFault p a token slot fault := fun _ => ⟨LeafFault.of_fault_eq, fun h => h.fault_eq⟩
  have houtcome := receive_outcome f p a (.leaf n token slot)
  generalize a.receive f p (.leaf n token slot) = r at hfault houtcome
  refine ⟨hfault, ?_, ?_, ?_⟩
  · cases houtcome <;> rfl
  · intro h
    cases houtcome with
    | beyond | loose | leafRefused => rfl
    | leafTaken => exact absurd rfl h
  · intro h
    cases houtcome with
    | beyond | loose | leafRefused => cases h
    | leafTaken htoken hstack hmade hfree =>
      exact ⟨_, _, _, _, htoken, hstack, hmade ▸ Pending.fills_put hfree _, rfl⟩

theorem ReduceFault.fault_eq (hsized : a.Sized p.graph.grammar) {id : Nat} {fault : DerivationError}
    (h : ReduceFault a id fault) (span : Span) :
    (a.receive f p (.reduce id span)).fault = some fault := by
  cases h with
  | noneOpen h => rw [receive, reduce, h]
  | mismatch h hid =>
    rw [receive, reduce, h]
    dsimp only
    rw [if_pos hid]
  | missing h hid hk =>
    rw [receive, reduce, h]
    dsimp only
    rw [if_neg (not_not_intro hid), Pending.firstFree?_eq_some_iff.2 hk]
  | @refused top parent rest fault h hid hfull hrefuse =>
    obtain ⟨q, hq, -⟩ := hsized top (h ▸ List.mem_cons_self)
    rw [← hid, receive_reduce_of_full h hq hfull, close]
    dsimp only
    rw [fill_of_refuses hrefuse]
  | @secondRoot top h hid hfull hroot =>
    obtain ⟨q, hq, -⟩ := hsized top (h ▸ List.mem_cons_self)
    obtain ⟨node, hnode⟩ := Option.ne_none_iff_exists'.1 hroot
    rw [← hid, receive_reduce_of_full h hq hfull, close]
    simp only [hnode]

theorem ReduceFault.of_fault_eq (hsized : a.Sized p.graph.grammar) {id : Nat} {span : Span}
    {fault : DerivationError} (h : (a.receive f p (.reduce id span)).fault = some fault) :
    ReduceFault a id fault := by
  have houtcome := receive_outcome f p a (.reduce id span)
  generalize a.receive f p (.reduce id span) = r at h houtcome
  cases houtcome with
  | noneOpen hstack =>
    cases h
    exact .noneOpen hstack
  | mismatch hstack hid =>
    cases h
    exact .mismatch hstack hid
  | missing hstack hid hk =>
    cases h
    exact .missing hstack hid hk
  | @unmade _ _ top _ hstack hid hfull hq =>
    -- The productions of pending nodes are declared.
    obtain ⟨q, hq', -⟩ := hsized top (hstack ▸ List.mem_cons_self)
    rw [hid, hq] at hq'
    cases hq'
  | nodeRefused hstack hid hmade hrefuse =>
    cases h
    exact .refused hstack hid hmade.free_eq hrefuse
  | secondRoot hstack hid hmade hroot =>
    cases h
    exact .secondRoot hstack hid hmade.free_eq hroot
  | nodeTaken | rooted => cases h

theorem reduce_frame (hsized : a.Sized p.graph.grammar) (id : Nat) (span : Span) :
    ReduceFrame f p a id (a.receive f p (.reduce id span)) := by
  have hfault : ∀ fault, (a.receive f p (.reduce id span)).fault = some fault ↔
      ReduceFault a id fault :=
    fun _ => ⟨ReduceFault.of_fault_eq hsized, fun h => h.fault_eq hsized span⟩
  have houtcome := receive_outcome f p a (.reduce id span)
  generalize a.receive f p (.reduce id span) = r at hfault houtcome
  refine ⟨hfault, ?_, ?_, ?_, ?_⟩
  · intro hnone
    cases houtcome with
    | noneOpen => rfl
    | mismatch hstack | missing hstack | unmade hstack | nodeRefused hstack | nodeTaken hstack
      | rooted hstack | secondRoot hstack =>
      rw [hnone] at hstack
      cases hstack
  · intro top rest hopen h
    cases houtcome with
    | noneOpen hstack => cases hopen.symm.trans hstack
    | mismatch hstack | missing hstack | unmade hstack | nodeRefused hstack | secondRoot hstack =>
      cases hopen.symm.trans hstack
      exact ⟨rfl, rfl⟩
    | nodeTaken | rooted => exact absurd rfl h
  · intro top parent rest hopen h
    cases houtcome with
    | nodeTaken hstack hid hmade htake =>
      cases hopen.symm.trans hstack
      exact ⟨rfl, _, _, _, _, _, hmade, htake, Pending.fills_put htake.free _, rfl⟩
    | rooted hstack => cases hopen.symm.trans hstack
    | noneOpen | mismatch | missing | unmade | nodeRefused | secondRoot => cases h
  · intro top hopen h
    cases houtcome with
    | rooted hstack hid hmade hroot =>
      cases hopen.symm.trans hstack
      exact ⟨hroot, rfl, _, _, _, hmade, rfl⟩
    | nodeTaken hstack => cases hopen.symm.trans hstack
    | noneOpen | mismatch | missing | unmade | nodeRefused | secondRoot => cases h

end Assembly

/-- Whatever has been received before, with or without faults: each fault of an event has its own condition,
a fault leaves all as it was but the innermost pending node of a reduction, and without a fault a leaf or a
reduction below another node fills one slot that was free and no other. -/
theorem receive_frame {σ ν : Type} (f : Factory σ ν) (p : Parsing) (state : σ) (events : List Event)
    (event : Event) :
    let a := Assembly.receiveEach f p { state } events
    match event with
    | .enter _ id _ _ => (p.graph.grammar.production? id ≠ none → (a.receive f p event).fault = none) ∧
      ((a.receive f p event).fault ≠ none → (a.receive f p event).assembly = a)
    | .leaf _ token slot => a.LeafFrame f p token slot (a.receive f p event)
    | .reduce id _ => a.ReduceFrame f p id (a.receive f p event) := by
  intro a
  cases event with
  | enter n id span slot =>
    have houtcome := Assembly.receive_outcome f p a (.enter n id span slot)
    generalize a.receive f p (.enter n id span slot) = r at houtcome
    cases houtcome with
    | entered hq => exact ⟨fun _ => rfl, fun h => absurd rfl h⟩
    | undeclared hq => exact ⟨fun h => absurd hq h, fun _ => rfl⟩
  | leaf n token slot => exact Assembly.leaf_frame n token slot
  | reduce id span =>
    exact Assembly.reduce_frame (Assembly.sized_receiveEach f p state events) id span

end GrammarFlow
