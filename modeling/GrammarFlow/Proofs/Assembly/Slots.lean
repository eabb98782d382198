import GrammarFlow.Proofs.Derivation.Assembly
import Mathlib.Order.Bounds.Defs

namespace GrammarFlow

theorem getLast?_filter_range_eq_some_iff {n k : Nat} {test : Nat → Bool} :
    ((List.range n).filter test).getLast? = some k ↔
      IsGreatest {k | k < n ∧ test k = true} k := by
  induction n with
  | zero => simp [IsGreatest]
  | succ n ih =>
    rw [List.range_succ, List.filter_append]
    by_cases h : test n = true
    · have hgreatest : IsGreatest {k | k < n + 1 ∧ test k = true} n :=
        ⟨⟨Nat.lt_succ_self n, h⟩, fun j hj => Nat.le_of_lt_succ hj.1⟩
      have hlast : ((List.range n).filter test ++ [n].filter test).getLast? = some n := by
        simp [h]
      rw [hlast, Option.some.injEq]
      exact ⟨fun hk => hk ▸ hgreatest, fun hk => hgreatest.unique hk⟩
    · have hbelow : {k | k < n + 1 ∧ test k = true} = {k | k < n ∧ test k = true} := by
        ext k
        constructor
        · rintro ⟨hlt, hk⟩
          exact ⟨Nat.lt_of_le_of_ne (Nat.le_of_lt_succ hlt) fun hkn => h (hkn ▸ hk), hk⟩
        · rintro ⟨hlt, hk⟩
          exact ⟨Nat.lt_succ_of_lt hlt, hk⟩
      rw [List.filter_singleton, Bool.eq_false_of_not_eq_true h, hbelow, ← ih]
      simp

namespace Pending

variable {ν : Type} {t t' : Pending ν} {slot : Option Nat} {k : Nat} {node : ν}

/-- The slots that take a node. -/
def Free (t : Pending ν) : Set Nat := {k | t.children[k]? = some none}

/-- `t'` is `t` with a node in a slot that was free, and is otherwise the same. -/
structure Fills (t : Pending ν) (k : Nat) (node : ν) (t' : Pending ν) : Prop where
  production_eq : t'.production = t.production
  span_eq : t'.span = t.span
  slot_eq : t'.slot = t.slot
  free : k ∈ t.Free
  filled : t'.children[k]? = some (some node)
  others : ∀ j ≠ k, t'.children[j]? = t.children[j]?

/-- The slot that a node goes to: the given one if it is free, or the last free one if none is given. -/
inductive Takes (t : Pending ν) : Option Nat → Nat → Prop
  | given {k : Nat} (h : k ∈ t.Free) : t.Takes (some k) k
  | last {k : Nat} (h : IsGreatest t.Free k) : t.Takes none k

/-- Why a node is not taken. -/
inductive Refuses (t : Pending ν) : Option Nat → DerivationError → Prop
  | full (h : t.Free = ∅) :
      t.Refuses none (.slotOutOfRange t.production t.children.length t.children.length)
  | outside {k : Nat} (h : t.children.length ≤ k) :
      t.Refuses (some k) (.slotOutOfRange t.production k t.children.length)
  | occupied {k : Nat} {node : ν} (h : t.children[k]? = some (some node)) :
      t.Refuses (some k) (.slotOccupied t.production k)

theorem lt_length_of_free (h : k ∈ t.Free) : k < t.children.length :=
  (List.getElem?_eq_some_iff.1 h).1

theorem fills_put (h : k ∈ t.Free) (node : ν) : t.Fills k node (t.put k node) where
  production_eq := rfl
  span_eq := rfl
  slot_eq := rfl
  free := h
  filled := List.getElem?_set_self (lt_length_of_free h)
  others _ hj := List.getElem?_set_ne hj.symm

theorem any_isNone_iff : (t.children[k]?).any (·.isNone) = true ↔ k ∈ t.Free := by
  rw [Option.any_eq_true]
  constructor
  · rintro ⟨c, hc, hnone⟩
    obtain rfl := Option.isNone_iff_eq_none.1 hnone
    exact hc
  · intro h
    exact ⟨none, h, rfl⟩

theorem lastFree?_eq_some_iff : t.lastFree? = some k ↔ IsGreatest t.Free k := by
  have hfree : {k | k < t.children.length ∧ (t.children[k]?).any (·.isNone) = true} = t.Free := by
    ext k
    exact ⟨fun h => any_isNone_iff.1 h.2, fun h => ⟨lt_length_of_free h, any_isNone_iff.2 h⟩⟩
  rw [lastFree?, getLast?_filter_range_eq_some_iff, hfree]

theorem lastFree?_eq_none_iff : t.lastFree? = none ↔ t.Free = ∅ := by
  rw [lastFree?, List.getLast?_eq_none_iff, List.filter_eq_nil_iff, Set.eq_empty_iff_forall_notMem]
  constructor
  · intro h k hk
    exact h k (List.mem_range.2 (lt_length_of_free hk)) (any_isNone_iff.2 hk)
  · intro h k _ hk
    exact h k (any_isNone_iff.1 hk)

theorem firstFree?_eq_some_iff : t.firstFree? = some k ↔ IsLeast t.Free k := by
  have hfree : ∀ {j} (hj : j < t.children.length), t.children[j].isNone = true ↔ j ∈ t.Free := by
    intro j hj
    rw [← any_isNone_iff, List.getElem?_eq_getElem hj, Option.any_some]
  rw [firstFree?, List.findIdx?_eq_some_iff_getElem]
  constructor
  · rintro ⟨hlt, hk, hbefore⟩
    refine ⟨(hfree hlt).1 hk, fun j hj => ?_⟩
    by_contra hjk
    exact hbefore j (Nat.lt_of_not_le hjk) ((hfree _).2 hj)
  · intro h
    have hlt := lt_length_of_free h.1
    refine ⟨hlt, (hfree hlt).2 h.1, fun j hj hnone => ?_⟩
    exact Nat.not_le_of_lt hj (h.2 ((hfree _).1 hnone))

theorem firstFree?_eq_none_iff : t.firstFree? = none ↔ t.Free = ∅ := by
  rw [firstFree?, List.findIdx?_eq_none_iff, Set.eq_empty_iff_forall_notMem]
  constructor
  · intro h k hk
    exact Bool.false_ne_true (h none (List.mem_of_getElem? hk)).symm
  · intro h c hc
    obtain ⟨k, hk⟩ := List.mem_iff_getElem?.1 hc
    cases c with
    | none => exact absurd hk (h k)
    | some node => rfl

/-- Where no slot is free, the slots hold the children one for one. -/
theorem children_eq_of_free (h : t.Free = ∅) : t.children = t.filled.map some := by
  have hsome : ∀ c ∈ t.children, c ≠ none := by
    rintro c hc rfl
    obtain ⟨k, hk⟩ := List.mem_iff_getElem?.1 hc
    exact Set.eq_empty_iff_forall_notMem.1 h k hk
  rw [filled]
  generalize t.children = children at hsome
  induction children with
  | nil => rfl
  | cons c children ih =>
    have hrest := ih fun x hx => hsome x (List.mem_cons_of_mem c hx)
    cases c with
    | none => exact absurd rfl (hsome none List.mem_cons_self)
    | some node => exact congrArg (some node :: ·) hrest

theorem Takes.free (h : t.Takes slot k) : k ∈ t.Free := by
  cases h with
  | given h => exact h
  | last h => exact h.1

theorem Takes.place_eq (h : t.Takes slot k) (node : ν) : t.place slot node = .ok (t.put k node) := by
  have hfree : t.children[k]? = some none := h.free
  have hslot : slot.or t.lastFree? = some k := by
    cases h with
    | given h => rfl
    | last h => exact lastFree?_eq_some_iff.2 h
  simp only [place, hslot, hfree, put]

theorem Refuses.place_eq {fault : DerivationError} (h : t.Refuses slot fault) (node : ν) :
    t.place slot node = .error fault := by
  cases h with
  | full h => simp only [place, lastFree?_eq_none_iff.2 h, Option.or_none]
  | outside h => simp only [place, Option.some_or, List.getElem?_eq_none h]
  | occupied h => simp only [place, Option.some_or, h]

/-- Every slot either takes a node or refuses it. -/
theorem takes_or_refuses (t : Pending ν) (slot : Option Nat) :
    (∃ k, t.Takes slot k) ∨ ∃ fault, t.Refuses slot fault := by
  cases slot with
  | none =>
    cases h : t.lastFree? with
    | none => exact .inr ⟨_, .full (lastFree?_eq_none_iff.1 h)⟩
    | some k => exact .inl ⟨k, .last (lastFree?_eq_some_iff.1 h)⟩
  | some k =>
    cases h : t.children[k]? with
    | none => exact .inr ⟨_, .outside (List.getElem?_eq_none_iff.1 h)⟩
    | some c =>
      cases c with
      | none => exact .inl ⟨k, .given h⟩
      | some node => exact .inr ⟨_, .occupied h⟩

end Pending

end GrammarFlow
