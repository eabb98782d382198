import GrammarFlow.Proofs.Derivation.Rounds
import GrammarFlow.Proofs.Derivation.Cycle
import Mathlib.Algebra.BigOperators.Ring.Finset
import Mathlib.Data.ENat.Basic

namespace GrammarFlow

theorem boundedAdd_min (a b : Nat) :
    boundedAdd (min a maxCount) (min b maxCount) = min (a + b) maxCount := by
  rw [boundedAdd]
  omega

theorem min_mul_min (a b : Nat) : min (a * min b maxCount) maxCount = min (a * b) maxCount := by
  rcases Nat.le_total b maxCount with hb | hb
  · rw [min_eq_left hb]
  · rw [min_eq_right hb]
    rcases Nat.eq_zero_or_pos a with rfl | ha
    · rw [Nat.zero_mul, Nat.zero_mul]
    · have hle : maxCount ≤ a * maxCount := Nat.le_mul_of_pos_left maxCount ha
      rw [min_eq_right hle, min_eq_right (hle.trans (Nat.mul_le_mul_left a hb))]

theorem boundedMul_min (a b : Nat) :
    boundedMul (min a maxCount) (min b maxCount) = min (a * b) maxCount := by
  rw [boundedMul, min_mul_min, Nat.mul_comm, min_mul_min, Nat.mul_comm]

theorem foldl_boundedAdd_value {ts : List Term} {f number : Ref → Nat}
    (hf : ∀ q ∈ ts.flatMap Term.refs, f q = min (number q) maxCount) (sum : Nat) :
    ts.foldl (fun sum term => boundedAdd sum (term.value f)) (min sum maxCount) =
      min (sum + (ts.map fun term => (term.refs.map number).prod).sum) maxCount := by
  induction ts generalizing sum with
  | nil => rfl
  | cons term ts ih =>
    have hvalue : term.value f = min (term.refs.map number).prod maxCount := by
      have hrefs : ∀ q ∈ term.refs, f q = min (number q) maxCount := fun q hq =>
        hf q (List.mem_flatMap.2 ⟨term, List.mem_cons_self, hq⟩)
      obtain ⟨source, _ | caller⟩ := term
      · simp [Term.value, Term.refs, hrefs source (by simp [Term.refs])]
      · simp [Term.value, Term.refs, hrefs source (by simp [Term.refs]),
          hrefs caller (by simp [Term.refs]), boundedMul_min]
    rw [List.foldl_cons, hvalue, boundedAdd_min, ih fun q hq =>
      hf q (by rw [List.flatMap_cons]; exact List.mem_append_right _ hq)]
    rw [List.map_cons, List.sum_cons, Nat.add_assoc]

namespace Parsing

variable {p : Parsing} {tokens : List Token} {r : Ref} {k : Key} {n : Nat}

theorem Counts.eq_ncard (hp : p.Accepts tokens) (h : p.Counts r n) (hr : p.chart.key? r = some k) :
    (p.trees r).Finite ∧ n = min (p.trees r).ncard maxCount := by
  induction h generalizing k with
  | @once r h =>
    obtain ⟨e, he, -⟩ := Chart.exists_entry?_of_key? hr
    rw [terms, he, Option.bind_some] at h
    rw [hp.trees_of_termsOf_none he h, Set.ncard_singleton]
    exact ⟨Set.finite_singleton [], by decide⟩
  | @total r ts f h hf ih =>
    obtain ⟨e, he, hts⟩ := Option.bind_eq_some_iff.1 h
    have hcard : ∀ q ∈ ts.flatMap Term.refs,
        (p.trees q).Finite ∧ f q = min (p.trees q).ncard maxCount := by
      intro q hq
      obtain ⟨k, hk⟩ := hp.exists_key?_of_feeds ⟨ts, h, hq⟩
      exact ih q hq hk
    -- All sources are finite, so the sum of products is a natural number.
    have hsum : (p.trees r).encard =
        ((ts.map fun term => (term.refs.map fun q => (p.trees q).ncard).prod).sum : Nat) := by
      rw [hp.encard_trees he hts, Nat.cast_list_sum, List.map_map]
      refine congrArg List.sum (List.map_congr_left fun term hterm => ?_)
      rw [Function.comp, Nat.cast_list_prod, List.map_map]
      refine congrArg List.prod (List.map_congr_left fun q hq => ?_)
      exact (hcard q (List.mem_flatMap.2 ⟨term, hterm, hq⟩)).1.cast_ncard_eq.symm
    refine ⟨Set.finite_of_encard_eq_coe hsum, ?_⟩
    have hfold := foldl_boundedAdd_value (fun q hq => (hcard q hq).2) 0
    rw [Nat.zero_min, Nat.zero_add] at hfold
    rw [hfold, Set.ncard_def, hsum, ENat.toNat_natCast]

namespace Accepts

theorem ncard_trees_accept (hp : p.Accepts tokens) :
    (p.trees p.accept).ncard = (p.grammar.derivations tokens).ncard := by
  rw [hp.trees_accept]
  exact Set.ncard_image_of_injective _ fun t u h => (List.cons.inj h).1

theorem finite_trees_accept (hp : p.Accepts tokens) :
    (p.trees p.accept).Finite ↔ (p.grammar.derivations tokens).Finite := by
  rw [hp.trees_accept]
  exact Set.finite_image_iff fun t _ u _ h => (List.cons.inj h).1

/-- There is a count just when there are finitely many derivations, and then it is their number. -/
theorem derivationCount_eq (hp : p.Accepts tokens) :
    (p.derivationCount = none ∧ (p.grammar.derivations tokens).Infinite) ∨
      (p.derivationCount = some (min (p.grammar.derivations tokens).ncard maxCount) ∧
        (p.grammar.derivations tokens).Finite) := by
  have hspec := hp.derivationCount_spec
  cases hcount : p.derivationCount with
  | none =>
    rw [hcount] at hspec
    obtain ⟨q, hreach, hcycle⟩ := hspec
    refine Or.inl ⟨rfl, ?_⟩
    rw [Set.Infinite, ← hp.finite_trees_accept]
    exact hp.infinite_of_cycle hreach hcycle
  | some n =>
    rw [hcount] at hspec
    obtain ⟨hfinite, hn⟩ := Counts.eq_ncard hp hspec hp.key?_accept
    rw [hp.ncard_trees_accept] at hn
    exact Or.inr ⟨by rw [hn], hp.finite_trees_accept.1 hfinite⟩

end Accepts

end Parsing

end GrammarFlow
