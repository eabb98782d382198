import GrammarFlow.Proofs.Tree.Preorder
import Mathlib.Data.List.Basic
import Mathlib.Data.List.Enum

namespace GrammarFlow.Tree

def at? : Tree → List Nat → Option Tree
  | t, [] => some t
  | t, k :: address => (t.children[k]?).bind (·.at? address)

mutual

/-- The addresses of all nodes, in preorder. -/
def addresses : Tree → List (List Nat)
  | .node _ _ _ children => [] :: forestAddresses 0 children

/-- The addresses of the nodes of siblings, of which the first one has the given place. -/
def forestAddresses : Nat → List Tree → List (List Nat)
  | _, [] => []
  | k, t :: rest => t.addresses.map (k :: ·) ++ forestAddresses (k + 1) rest

end

theorem forestAddresses_eq (k : Nat) (ts : List Tree) :
    forestAddresses k ts = (ts.zipIdx k).flatMap fun x => x.1.addresses.map (x.2 :: ·) := by
  induction ts generalizing k with
  | nil => rw [forestAddresses, List.zipIdx_nil, List.flatMap_nil]
  | cons t rest ih => rw [forestAddresses, ih, List.zipIdx_cons, List.flatMap_cons]

theorem addresses_eq (t : Tree) : t.addresses =
    [] :: t.children.zipIdx.flatMap fun x => x.1.addresses.map (x.2 :: ·) := by
  cases t
  rw [addresses, forestAddresses_eq, children]

mutual

/-- What is inherited from all children of a node holds of every tree. -/
theorem of_children {P : Tree → Prop} (h : ∀ t : Tree, (∀ c ∈ t.children, P c) → P t) :
    ∀ t : Tree, P t
  | .node _ _ _ children => h _ (of_forest h children)

theorem of_forest {P : Tree → Prop} (h : ∀ t : Tree, (∀ c ∈ t.children, P c) → P t) :
    ∀ ts : List Tree, ∀ c ∈ ts, P c
  | [], _, hc => nomatch hc
  | t :: ts, c, hc => by
    rcases List.mem_cons.1 hc with hfirst | hc
    · rw [hfirst]
      exact of_children h t
    · exact of_forest h ts c hc

end

section

variable {t c : Tree} {k : Nat} {address : List Nat}

theorem at?_cons (hc : t.children[k]? = some c) : t.at? (k :: address) = c.at? address := by
  rw [at?, hc, Option.bind_some]

theorem mem_zipIdx_iff {x : Tree × Nat} :
    x ∈ t.children.zipIdx ↔ t.children[x.2]? = some x.1 := List.mem_zipIdx_iff_getElem?

theorem mem_addresses_iff (t : Tree) (address : List Nat) :
    address ∈ t.addresses ↔ (t.at? address).isSome := by
  induction address generalizing t with
  | nil =>
    rw [addresses_eq]
    exact iff_of_true List.mem_cons_self rfl
  | cons k address ih =>
    rw [addresses_eq, List.mem_cons, or_iff_right (List.cons_ne_nil k address), at?,
      Option.isSome_bind, Option.any_eq_true]
    simp only [List.mem_flatMap, List.mem_map, List.cons.injEq, ← ih]
    constructor
    · rintro ⟨⟨c, _⟩, hc, _, hmem, rfl, rfl⟩
      exact ⟨c, mem_zipIdx_iff.1 hc, hmem⟩
    · rintro ⟨c, hc, hmem⟩
      exact ⟨(c, k), mem_zipIdx_iff.2 hc, address, hmem, rfl, rfl⟩

/-- Addresses ascend in preorder: each node comes before its children, and these with all that is below
them from left to right. -/
theorem pairwise_addresses (t : Tree) : t.addresses.Pairwise (· < ·) := by
  induction t using of_children with
  | h t ih =>
    have hplaces : t.children.zipIdx.Pairwise fun x y => x.2 < y.2 := by
      rw [← List.pairwise_map (f := Prod.snd) (R := (· < ·)), List.zipIdx_map_snd]
      exact List.pairwise_lt_range'
    rw [addresses_eq, List.pairwise_cons, List.pairwise_flatMap]
    refine ⟨?_, fun x hx => ?_, hplaces.imp fun {x y} hlt a ha b hb => ?_⟩
    · intro address haddress
      obtain ⟨x, -, hmem⟩ := List.mem_flatMap.1 haddress
      obtain ⟨below, -, rfl⟩ := List.mem_map.1 hmem
      exact List.nil_lt_cons _ _
    · have hchild := ih x.1 (List.mem_of_getElem? (mem_zipIdx_iff.1 hx))
      exact hchild.map _ fun a b hlt => List.cons_lt_cons_iff.2 (Or.inr ⟨rfl, hlt⟩)
    · obtain ⟨a, -, rfl⟩ := List.mem_map.1 ha
      obtain ⟨b, -, rfl⟩ := List.mem_map.1 hb
      exact List.cons_lt_cons_iff.2 (Or.inl hlt)

/-- What each child yields for its own addresses is yielded for the addresses below the node. -/
theorem flatMap_zipIdx_children {α : Type} {f : Tree × Nat → List α} {g : List Nat → α}
    (h : ∀ k c, t.children[k]? = some c → f (c, k) = c.addresses.map fun a => g (k :: a)) :
    t.children.zipIdx.flatMap f = t.addresses.tail.map g := by
  rw [addresses_eq, List.tail_cons, List.map_flatMap]
  refine List.flatMap_congr fun x hx => ?_
  rw [h x.2 x.1 (mem_zipIdx_iff.1 hx), List.map_map]
  rfl

theorem forestNodesFrom_eq_zipIdx (ts : List Tree) (depth : Nat) :
    forestNodesFrom ts depth = ts.zipIdx.flatMap fun x => x.1.nodesFrom depth := by
  conv_lhs => rw [forestNodesFrom_eq_flatMap, ← List.zipIdx_map_fst 0 ts, List.flatMap_map]

theorem map_nodesFrom (t : Tree) (depth : Nat) : (t.nodesFrom depth).map some =
    t.addresses.map fun address => (t.at? address).map (depth + address.length, ·) := by
  induction t using of_children generalizing depth with
  | h t ih =>
    have hbelow : (forestNodesFrom t.children (depth + 1)).map some =
        t.addresses.tail.map fun address => (t.at? address).map (depth + address.length, ·) := by
      rw [forestNodesFrom_eq_zipIdx, List.map_flatMap]
      refine flatMap_zipIdx_children fun k c hc => ?_
      rw [ih c (List.mem_of_getElem? hc)]
      refine List.map_congr_left fun address _ => ?_
      rw [at?_cons hc, List.length_cons, Nat.add_right_comm depth, Nat.add_assoc]
    rw [nodesFrom_eq, List.map_cons, hbelow, addresses_eq]
    rfl

/-- Preorder visits the addresses in turn, each at the depth of its length. -/
theorem map_preorder (t : Tree) : t.preorder.map some =
    t.addresses.map fun address => (t.at? address).map (address.length, ·) := by
  rw [preorder_eq, map_nodesFrom]
  simp only [Nat.zero_add]

end

end GrammarFlow.Tree
