import GrammarFlow.Derivation.Walk
import Mathlib.Tactic.ByContra

namespace GrammarFlow

namespace Parsing

variable {p : Parsing} {w w' v u : Walker} {event event' : Option Event} {xs ys : List Event}
  {n m : Nat} {r : Ref}

/-- One step of the walker, at the entry that comes next. -/
def Moves (p : Parsing) (w : Walker) (event : Option Event) (w' : Walker) : Prop :=
  ∃ r, w.current = some r ∧ p.step w r = .ok (event, w')

/-- So many steps of the walker, whatever the bound of the program, and the events that they give. -/
inductive Runs (p : Parsing) : Nat → Walker → List Event → Walker → Prop where
  | refl (w : Walker) : Runs p 0 w [] w
  | head {n : Nat} {w v w' : Walker} {event : Option Event} {events : List Event}
    (hmove : p.Moves w event v) (hrest : Runs p n v events w') :
    Runs p (n + 1) w (event.toList ++ events) w'

theorem Moves.unique (h : p.Moves w event v) (h' : p.Moves w event' u) : event = event' ∧ v = u := by
  obtain ⟨r, hr, hstep⟩ := h
  obtain ⟨r', hr', hstep'⟩ := h'
  obtain rfl := Option.some.inj (hr.symm.trans hr')
  exact Prod.mk.inj (Except.ok.inj (hstep.symm.trans hstep'))

theorem Moves.run (h : p.Moves w event v) : p.Runs 1 w event.toList v := by
  have hrun := Runs.head h (.refl v)
  rwa [List.append_nil] at hrun

namespace Runs

theorem trans (h : p.Runs n w xs v) (h' : p.Runs m v ys u) : p.Runs (n + m) w (xs ++ ys) u := by
  induction h with
  | refl w => rwa [Nat.zero_add, List.nil_append]
  | head hmove _ ih =>
    rw [Nat.add_right_comm, List.append_assoc]
    exact head hmove (ih h')

/-- Of two runs from one state, the longer one goes on where the shorter one has come to. -/
theorem exists_rest (h : p.Runs n w xs v) (h' : p.Runs m w ys u) (hle : n ≤ m) :
    ∃ zs, ys = xs ++ zs ∧ p.Runs (m - n) v zs u := by
  induction h generalizing m ys with
  | refl w => exact ⟨ys, rfl, h'⟩
  | head hmove _ ih =>
    cases h' with
    | refl => cases hle
    | head hmove' hrest' =>
      obtain ⟨rfl, rfl⟩ := hmove.unique hmove'
      obtain ⟨zs, rfl, hrun⟩ := ih hrest' (Nat.le_of_succ_le_succ hle)
      rw [Nat.add_sub_add_right]
      exact ⟨zs, (List.append_assoc ..).symm, hrun⟩

theorem eq_of_ended (h : p.Runs n w xs v) (hw : w.current = none) : n = 0 ∧ xs = [] ∧ v = w := by
  cases h with
  | refl => exact ⟨rfl, rfl, rfl⟩
  | head hmove hrest =>
    obtain ⟨r, hr, -⟩ := hmove
    cases hw.symm.trans hr

/-- A run that ends goes through all that any run comes to. -/
theorem exists_rest_of_ended (h : p.Runs n w xs v) (hv : v.current = none) (h' : p.Runs m w ys u) :
    ∃ zs, xs = ys ++ zs ∧ m ≤ n ∧ p.Runs (n - m) u zs v := by
  have hle : m ≤ n := by
    by_contra hlt
    obtain ⟨zs, -, hrest⟩ := h.exists_rest h' (Nat.le_of_not_le hlt)
    obtain ⟨hzero, -, -⟩ := hrest.eq_of_ended hv
    omega
  obtain ⟨zs, hxs, hrest⟩ := h'.exists_rest h hle
  exact ⟨zs, hxs, hle, hrest⟩

theorem exists_move (h : p.Runs n w xs v) (hv : v.current = none) (h' : p.Runs m w ys u)
    (hu : u.current = some r) : ∃ event u', p.step u r = .ok (event, u') := by
  obtain ⟨zs, -, -, hrest⟩ := h.exists_rest_of_ended hv h'
  generalize n - m = k at hrest
  cases hrest with
  | refl => cases hu.symm.trans hv
  | head hmove _ =>
    obtain ⟨r', hr', hstep⟩ := hmove
    obtain rfl := Option.some.inj (hu.symm.trans hr')
    exact ⟨_, _, hstep⟩

theorem length_le (h : p.Runs n w xs v) : xs.length ≤ n := by
  induction h with
  | refl => exact Nat.le_refl 0
  | @head n _ _ _ event _ _ _ ih =>
    have hone : event.toList.length ≤ 1 := by cases event <;> simp
    rw [List.length_append]
    omega

/-- Where a run gives an event, the iterator gives it too and leaves the rest of the run. -/
theorem exists_next {x : Event} (h : p.Runs n w (x :: xs) v) {fuel : Nat} (hfuel : n ≤ fuel) :
    ∃ k u, p.next fuel w = (some (.ok x), u) ∧ k ≤ n ∧ p.Runs k u xs v := by
  generalize hevents : x :: xs = events at h
  induction h generalizing fuel with
  | refl => cases hevents
  | @head n w u v event events hmove hrest ih =>
    obtain ⟨r, hr, hstep⟩ := hmove
    obtain _ | fuel := fuel
    · cases hfuel
    rw [next, hr]
    dsimp only
    rw [hstep]
    cases event with
    | none =>
      obtain ⟨k, u', hnext, hk, hrun⟩ := ih (Nat.le_of_succ_le_succ hfuel) hevents
      exact ⟨k, u', hnext, Nat.le_succ_of_le hk, hrun⟩
    | some y =>
      obtain ⟨rfl, rfl⟩ := List.cons.inj hevents
      exact ⟨n, u, rfl, Nat.le_succ n, hrest⟩

theorem next_eq_none (h : p.Runs n w [] v) (hv : v.current = none) (fuel : Nat) :
    (p.next fuel w).1 = none := by
  generalize hevents : ([] : List Event) = events at h
  induction h generalizing fuel with
  | refl w =>
    obtain _ | fuel := fuel
    · rfl
    · rw [next, hv]
  | @head n w u v event events hmove hrest ih =>
    obtain ⟨r, hr, hstep⟩ := hmove
    obtain _ | fuel := fuel
    · rfl
    rw [next, hr]
    dsimp only
    rw [hstep]
    cases event with
    | none => exact ih hv fuel hevents
    | some y => cases hevents

variable {α : Type} {receive : α → Event → Except DerivationError α} {a : α}

theorem handAll_eq (h : p.Runs n w xs v) (hv : v.current = none) {bound fuel : Nat}
    (hbound : n ≤ bound) (hfuel : xs.length < fuel) :
    p.handAll receive bound fuel w a = xs.foldlM receive a := by
  -- By induction on the events: the loop over the iterator receives them one after another.
  induction xs generalizing n w fuel a with
  | nil =>
    obtain _ | fuel := fuel
    · rfl
    rw [handAll]
    have hnone := h.next_eq_none hv bound
    generalize p.next bound w = result at hnone
    obtain ⟨event, u⟩ := result
    obtain rfl : event = none := hnone
    rfl
  | cons x xs ih =>
    obtain _ | fuel := fuel
    · cases hfuel
    obtain ⟨k, u, hnext, hk, hrun⟩ := h.exists_next hbound
    rw [handAll, hnext, List.foldlM_cons]
    dsimp only
    cases receive a x with
    | error fault => rfl
    | ok a => exact ih hrun (Nat.le_trans hk hbound) (Nat.lt_of_succ_lt_succ hfuel)

theorem replay_eq (h : p.Runs n p.walker xs v) (hv : v.current = none) (hn : n < p.stepBound) :
    p.replay receive a = xs.foldlM receive a :=
  h.handAll_eq hv (Nat.le_of_lt hn) (Nat.lt_of_le_of_lt h.length_le hn)

theorem walk_eq (h : p.Runs n p.walker xs v) (hv : v.current = none) (hn : n < p.stepBound) :
    p.walk = .ok xs := by
  have hpush : ∀ (xs : List Event) (acc : Array Event),
      (xs.foldlM (fun events x => .ok (events.push x)) acc : Except DerivationError (Array Event)) =
        .ok (acc ++ xs) := by
    intro xs
    induction xs with
    | nil => exact fun acc => by simp [pure, Except.pure]
    | cons x xs ih =>
      intro acc
      rw [List.foldlM_cons]
      exact (ih _).trans (by simp)
  rw [walk, h.replay_eq hv hn, hpush]
  simp [Except.map]

end Runs

end Parsing

end GrammarFlow
