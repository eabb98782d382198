import GrammarFlow.Proofs.Assembly.Naturality
import Mathlib.Data.List.Perm.Basic

namespace GrammarFlow

/-- A node that has been made: the call for it, and the numbers of the nodes that were handed over. -/
structure Made (ν : Type) where
  call : Call
  parts : List Nat
  node : ν

/-- The factory that numbers its nodes in the order of the calls, with a record of them. -/
def Factory.numbered {σ ν : Type} (f : Factory σ ν) : Factory (σ × List (Made ν)) (Nat × ν) where
  leaf g token span s :=
    let (node, state) := f.leaf g token span s.1
    ((s.2.length, node), state, s.2 ++ [⟨.leaf token span, [], node⟩])
  reduce g q span children s :=
    let (node, state) := f.reduce g q span (children.map Prod.snd) s.1
    ((s.2.length, node), state, s.2 ++ [⟨.reduce q span, children.map Prod.fst, node⟩])

theorem getElem?_concat_eq_some_iff {α : Type} {xs : List α} {x y : α} {k : Nat} :
    (xs ++ [x])[k]? = some y ↔ xs[k]? = some y ∨ k = xs.length ∧ x = y := by
  rcases Nat.lt_trichotomy k xs.length with hk | rfl | hk
  · simp [List.getElem?_append_left hk, hk.ne]
  · simp
  · simp [hk, hk.le, hk.ne']

variable {σ ν : Type}

theorem Factory.numbered_covers (f : Factory σ ν) : f.numbered.Covers f Prod.fst Prod.snd :=
  ⟨fun _ _ _ _ => rfl, fun _ _ _ _ _ => rfl⟩

theorem Pending.filled_put {t : Pending ν} {k : Nat} (h : k ∈ t.Free) (node : ν) :
    (t.put k node).filled.Perm (node :: t.filled) := by
  obtain ⟨left, right, hsplit, rfl⟩ : ∃ left right, t.children = left ++ none :: right ∧
      left.length = k := by
    obtain ⟨hlt, hnone⟩ := List.getElem?_eq_some_iff.1 h
    refine ⟨t.children.take k, t.children.drop (k + 1), ?_, List.length_take_of_le hlt.le⟩
    rw [← hnone, List.cons_getElem_drop_succ, List.take_append_drop]
  have hput : (t.put left.length node).filled = left.filterMap id ++ node :: right.filterMap id := by
    simp [filled, put, hsplit]
  have hfilled : t.filled = left.filterMap id ++ right.filterMap id := by
    simp [filled, hsplit]
  rw [hput, hfilled]
  exact List.perm_middle

namespace Assembly

def record (a : Assembly (σ × List (Made ν)) (Nat × ν)) : List (Made ν) := a.state.2

/-- The numbers of the nodes that have been handed over for other nodes. -/
def handed (a : Assembly (σ × List (Made ν)) (Nat × ν)) : List Nat := a.record.flatMap Made.parts

/-- The nodes in slots, and the root. -/
def held {μ τ : Type} (a : Assembly τ μ) : List μ := a.stack.flatMap Pending.filled ++ a.root.toList

/-- Every node that has been made is handed over, held or lost, once, and later than its parts. -/
structure Balanced (a : Assembly (σ × List (Made ν)) (Nat × ν)) (lost : List Nat) : Prop where
  shared : (a.handed ++ (a.held.map Prod.fst ++ lost)).Perm (List.range a.record.length)
  older : ∀ (k : Nat) (m : Made ν), a.record[k]? = some m → ∀ j ∈ m.parts, j < k
  told : ∀ x ∈ a.held, (a.record[x.1]?).map Made.node = some x.2

variable {a a' : Assembly (σ × List (Made ν)) (Nat × ν)} {lost : List Nat}

theorem Balanced.lt_length (h : a.Balanced lost) {x : Nat × ν} (hx : x ∈ a.held) :
    x.1 < a.record.length := by
  obtain ⟨m, hm, -⟩ := Option.map_eq_some_iff.1 (h.told x hx)
  exact (List.getElem?_eq_some_iff.1 hm).1

theorem Balanced.lose (h : a.Balanced lost) (dropped : List (Nat × ν)) (hrecord : a'.record = a.record)
    (hheld : (a'.held ++ dropped).Perm a.held) : a'.Balanced (lost ++ dropped.map Prod.fst) where
  shared := by
    rw [List.perm_iff_count]
    intro j
    have hbefore := h.shared.count_eq j
    have hafter := (hheld.map Prod.fst).count_eq j
    simp only [handed, hrecord, List.map_append, List.count_append] at hbefore hafter ⊢
    omega
  older := hrecord ▸ h.older
  told x hx := hrecord ▸ h.told x (hheld.mem_iff.1 (List.mem_append_left _ hx))

theorem Balanced.make (h : a.Balanced lost) (taken dropped : List (Nat × ν)) {m : Made ν}
    {kept : List (Nat × ν)} (hrecord : a'.record = a.record ++ [m])
    (hparts : m.parts = taken.map Prod.fst)
    (hbefore : a.held.Perm (taken ++ kept))
    (hafter : (a'.held ++ dropped).Perm ((a.record.length, m.node) :: kept)) :
    a'.Balanced (lost ++ dropped.map Prod.fst) where
  shared := by
    -- Every number is counted: what was taken is handed over, and the new number is held or dropped.
    rw [List.perm_iff_count]
    intro j
    have hall := h.shared.count_eq j
    have htaken := (hbefore.map Prod.fst).count_eq j
    have hmade := (hafter.map Prod.fst).count_eq j
    simp only [handed, hrecord, List.flatMap_append, List.flatMap_singleton, hparts, List.map_append,
      List.map_cons, List.count_append, List.count_cons, List.length_append, List.length_singleton,
      List.range_succ, List.count_nil] at hall htaken hmade ⊢
    omega
  older k m' hm' j hj := by
    rw [hrecord, getElem?_concat_eq_some_iff] at hm'
    rcases hm' with hm' | ⟨rfl, rfl⟩
    · exact h.older k m' hm' j hj
    · rw [hparts] at hj
      obtain ⟨x, hx, rfl⟩ := List.mem_map.1 hj
      exact h.lt_length (hbefore.mem_iff.2 (List.mem_append_left _ hx))
  told x hx := by
    rcases List.mem_cons.1 (hafter.mem_iff.1 (List.mem_append_left _ hx)) with rfl | hx
    · simp [hrecord]
    · have hheld : x ∈ a.held := hbefore.mem_iff.2 (List.mem_append_right _ hx)
      rw [hrecord, List.getElem?_append_left (h.lt_length hheld)]
      exact h.told x hheld

/-- Without the numbers, the run is that of the factory itself. -/
theorem receiveEach_numbered (f : Factory σ ν) (p : Parsing) (state : σ) (events : List Event) :
    (receiveEach f.numbered p { state := (state, []) } events).map Prod.fst Prod.snd =
      receiveEach f p { state } events :=
  (receiveEach_map f.numbered_covers p _ events).symm

theorem held_cons {μ τ : Type} (s s' : τ) (top : Pending μ) (rest : List (Pending μ)) (root : Option μ) :
    held ⟨s, top :: rest, root⟩ = top.filled ++ held ⟨s', rest, root⟩ := by
  rw [held, List.flatMap_cons, List.append_assoc, held]

theorem held_put {μ τ : Type} {top : Pending μ} {k : Nat} (h : k ∈ top.Free) (s s' : τ) (x : μ)
    (rest : List (Pending μ)) (root : Option μ) :
    (held ⟨s, top.put k x :: rest, root⟩).Perm (x :: held ⟨s', top :: rest, root⟩) := by
  rw [held_cons s s, held_cons s' s]
  exact (Pending.filled_put h x).append_right _

/-- The nodes that are handed over are those of the pending node that is taken off the stack. -/
theorem Makes.held_perm {μ τ : Type} {f : Factory τ μ} {g : Grammar} {s : τ} {a : Assembly τ μ}
    {top : Pending μ} {rest : List (Pending μ)} {q : Production} {nodes : List μ} {made : μ × τ}
    (h : Makes f g s top q nodes made) (hstack : a.stack = top :: rest) :
    a.held.Perm (nodes ++ held { a with stack := rest }) := by
  have hfilled : top.filled = nodes := by
    rw [Pending.filled, h.full]
    simp
  obtain ⟨s', stack, root⟩ := a
  subst hstack
  rw [held_cons s' s', hfilled]

theorem balanced_nil (state : σ) :
    Balanced ({ state := (state, []) } : Assembly (σ × List (Made ν)) (Nat × ν)) [] where
  shared := .nil
  older := nofun
  told := nofun

/-- An event keeps the balance, and loses nodes only with a fault. -/
theorem Balanced.receive (h : a.Balanced lost) (f : Factory σ ν) (p : Parsing) (event : Event) :
    ∃ dropped : List Nat, (a.receive f.numbered p event).assembly.Balanced (lost ++ dropped) ∧
      ((a.receive f.numbered p event).fault = none → dropped = []) := by
  have houtcome := receive_outcome f.numbered p a event
  generalize a.receive f.numbered p event = r at houtcome
  obtain ⟨state, stack, root⟩ := a
  cases houtcome with
  | entered hq =>
    refine ⟨[], h.lose [] rfl ?_, fun _ => rfl⟩
    rw [List.append_nil, held_cons state state]
    simp [Pending.filled]
  | undeclared | beyond | noneOpen =>
    refine ⟨[], h.lose [] rfl ?_, fun _ => rfl⟩
    rw [List.append_nil]
  | loose | leafRefused =>
    exact ⟨_, h.make [] _ rfl rfl (.refl _) (List.perm_append_singleton _ _), fun h => by cases h⟩
  | leafTaken htoken hstack hmade hfree =>
    subst hstack hmade
    refine ⟨[], h.make [] [] rfl rfl (.refl _) ?_, fun _ => rfl⟩
    rw [List.append_nil]
    exact held_put hfree _ _ _ _ _
  | @mismatch _ _ top _ hstack | @missing _ _ _ top _ hstack | @unmade _ _ top _ hstack =>
    subst hstack
    refine ⟨_, h.lose top.filled rfl ?_, fun h => by cases h⟩
    rw [held_cons state state]
    exact List.perm_append_comm
  | nodeRefused hstack hid hmade hrefuse =>
    have hheld := hmade.held_perm hstack
    obtain ⟨-, -, rfl⟩ := hmade
    exact ⟨_, h.make _ _ rfl rfl hheld (List.perm_append_singleton _ _), fun h => by cases h⟩
  | nodeTaken hstack hid hmade htake =>
    have hheld := hmade.held_perm hstack
    obtain ⟨-, -, rfl⟩ := hmade
    refine ⟨[], h.make _ [] rfl rfl hheld ?_, fun _ => rfl⟩
    rw [List.append_nil]
    exact held_put htake.free _ _ _ _ _
  | rooted hstack hid hmade hroot =>
    have hheld := hmade.held_perm hstack
    obtain ⟨-, -, rfl⟩ := hmade
    subst hroot
    exact ⟨[], h.make _ [] rfl rfl hheld (.refl _), fun _ => rfl⟩
  | secondRoot hstack hid hmade hroot =>
    have hheld := hmade.held_perm hstack
    obtain ⟨-, -, rfl⟩ := hmade
    exact ⟨_, h.make _ _ rfl rfl hheld (List.perm_append_singleton _ _), fun h => by cases h⟩

end Assembly

end GrammarFlow
