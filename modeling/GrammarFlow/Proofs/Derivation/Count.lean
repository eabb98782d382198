import GrammarFlow.Proofs.Derivation.Terms
import Mathlib.Algebra.GroupWithZero.Nat
import Mathlib.Algebra.Order.BigOperators.Group.List
import Mathlib.Algebra.Order.Group.Nat
import Mathlib.Data.Set.Insert

namespace GrammarFlow

namespace Tally

variable {t : Tally} {r q : Ref} {m : Mark} {n : Nat}

def Holds (t : Tally) (r : Ref) : Prop := ∃ row, t.marks[r.position]? = some row ∧ r.index < row.size

theorem mark_setMark (h : t.Holds r) : (t.setMark r m).mark q = if q = r then m else t.mark q := by
  obtain ⟨row, hrow, hlt⟩ := h
  obtain ⟨i, j⟩ := r
  obtain ⟨i', j'⟩ := q
  simp only [mark, setMark, Array.getElem?_modify]
  by_cases hi : i = i'
  · subst hi
    dsimp only at hrow hlt
    rw [if_pos rfl, hrow]
    simp only [Option.map_some, Option.bind_some, Array.getElem?_modify]
    by_cases hj : j = j'
    · subst hj
      rw [if_pos rfl, if_pos rfl, Array.getElem?_eq_getElem hlt]
      rfl
    · rw [if_neg hj, if_neg]
      simpa [eq_comm] using hj
  · rw [if_neg hi, if_neg]
    intro h
    exact hi (Ref.mk.inj h).1.symm

theorem Holds.setMark (h : t.Holds q) : (t.setMark r m).Holds q := by
  obtain ⟨row, hrow, hlt⟩ := h
  simp only [Holds, Tally.setMark, Array.getElem?_modify, hrow]
  split
  · exact ⟨_, rfl, by simpa using hlt⟩
  · exact ⟨row, rfl, hlt⟩

theorem holds_ofChart {c : Chart} {k : Key} (h : c.key? r = some k) : (ofChart c).Holds r := by
  obtain ⟨e, he, -⟩ := Chart.exists_entry?_of_key? h
  obtain ⟨s, hs, hindex⟩ := Option.bind_eq_some_iff.1 he
  refine ⟨Array.replicate s.size .unseen, ?_, ?_⟩
  · rw [ofChart, Array.getElem?_map, show c.sets[r.position]? = some s from hs]
    rfl
  · rw [Array.size_replicate]
    exact (Array.getElem?_eq_some_iff.1 hindex).1

@[simp] theorem mark_ofChart (c : Chart) (r : Ref) : (ofChart c).mark r = .unseen := by
  simp only [mark, ofChart, Array.getElem?_map]
  cases c.sets[r.position]? with
  | none => rfl
  | some s =>
    simp only [Option.map_some, Option.bind_some, Array.getElem?_replicate]
    split <;> rfl

theorem isCounted_iff : t.isCounted r = true ↔ ∃ n, t.mark r = .counted n := by
  rw [isCounted]
  split
  · next n h => simp [h]
  · next h => simpa using h

theorem mark_eq_unseen (hcounted : ¬t.isCounted r = true) (hactive : t.mark r ≠ .active) :
    t.mark r = .unseen := by
  cases hmark : t.mark r with
  | unseen => rfl
  | active => exact absurd hmark hactive
  | counted n => exact absurd (isCounted_iff.2 ⟨n, hmark⟩) hcounted

theorem count_of_mark (h : t.mark r = .counted n) : t.count r = n := by
  rw [count, h]

end Tally

def Term.value (f : Ref → Nat) (term : Term) : Nat :=
  match term.caller with
  | some caller => boundedMul (f term.source) (f caller)
  | none => f term.source

theorem Tally.total_eq (t : Tally) (terms : List Term) :
    t.total terms = terms.foldl (fun sum term => boundedAdd sum (term.value t.count)) 0 := rfl

namespace Parsing

open Relation

variable {p : Parsing} {r q root : Ref} {t : Tally} {n : Nat} {stack : List (Ref × Bool)}

/-- The count of an entry by recursion on its terms: one without terms counts once. -/
inductive Counts (p : Parsing) : Ref → Nat → Prop where
  | once {r : Ref} (h : p.terms r = none) : Counts p r 1
  | total {r : Ref} {ts : List Term} {f : Ref → Nat} (h : p.terms r = some ts)
    (hf : ∀ q ∈ ts.flatMap Term.refs, Counts p q (f q)) :
    Counts p r (ts.foldl (fun sum term => boundedAdd sum (term.value f)) 0)

theorem Counts.not_cycle (h : p.Counts r n) (hreach : ReflTransGen p.Feeds r q) :
    ¬TransGen p.Feeds q q := by
  -- A cycle through the entry itself passes through one of its sources too.
  induction h generalizing q with
  | @once r h =>
    have hno : ∀ {s}, ¬p.Feeds r s := by
      rintro s ⟨ts, hts, -⟩
      rw [h] at hts
      cases hts
    intro hcycle
    rcases hreach.cases_head with rfl | ⟨s, hstep, -⟩
    · obtain ⟨s, hstep, -⟩ := TransGen.head'_iff.1 hcycle
      exact hno hstep
    · exact hno hstep
  | @total r ts f h hf ih =>
    have hmem : ∀ {s}, p.Feeds r s → s ∈ ts.flatMap Term.refs := by
      rintro s ⟨ts', hts', hs⟩
      obtain rfl := Option.some.inj (hts'.symm.trans h)
      exact hs
    intro hcycle
    rcases hreach.cases_head with rfl | ⟨s, hstep, hrest⟩
    · obtain ⟨s, hstep, hrest⟩ := TransGen.head'_iff.1 hcycle
      exact ih s (hmem hstep) .refl (TransGen.tail' hrest hstep)
    · exact ih s (hmem hstep) hrest hcycle

/-- Every open entry of the stack, one that is met again, has its sources in the set or above it, and so
does the root by the end. -/
def Owed (p : Parsing) (root : Ref) : Set Ref → List (Ref × Bool) → Prop
  | done, [] => root ∈ done
  | done, (r, expanded) :: stack =>
    (expanded = true → ∀ q, p.Feeds r q → q ∈ done) ∧ Owed p root (insert r done) stack

theorem Owed.mono {done done' : Set Ref} (h : p.Owed root done stack) (hsub : done ⊆ done') :
    p.Owed root done' stack := by
  induction stack generalizing done done' with
  | nil => exact hsub h
  | cons x stack ih =>
    obtain ⟨hx, hrest⟩ := h
    exact ⟨fun hb q hq => hsub (hx hb q hq), ih hrest (Set.insert_subset_insert hsub)⟩

theorem Owed.append {done : Set Ref} {new : List Ref}
    (h : p.Owed root (done ∪ {q | q ∈ new}) stack) :
    p.Owed root done (new.map (·, false) ++ stack) := by
  induction new generalizing done with
  | nil => simpa using h
  | cons q new ih =>
    refine ⟨nofun, ih (h.mono ?_)⟩
    rintro s (hs | hs)
    · exact Or.inl (Or.inr hs)
    · rcases List.mem_cons.1 hs with rfl | hs
      · exact Or.inl (Or.inl rfl)
      · exact Or.inr hs

/-- The count of an entry from the marks on its sources. -/
def countAt (p : Parsing) (t : Tally) (r : Ref) : Nat :=
  match p.terms r with
  | none => 1
  | some terms => t.total terms

/-- The loop between two rounds: what is counted is counted right, the stack is a way down from the
root, and an active entry is on that way. -/
structure Counting (p : Parsing) (root : Ref) (stack : List (Ref × Bool)) (t : Tally) : Prop where
  holds : ∀ {r k}, p.chart.key? r = some k → t.Holds r
  known : ∀ x ∈ stack, ∃ k, p.chart.key? x.1 = some k
  reached : ∀ x ∈ stack, ReflTransGen p.Feeds root x.1
  chained : stack.Pairwise fun x y => y.2 = true → TransGen p.Feeds y.1 x.1
  active : ∀ {r}, t.mark r = .active → (r, true) ∈ stack
  counted : ∀ {r n}, t.mark r = .counted n → p.Counts r n
  owed : p.Owed root {q | t.isCounted q = true} stack

namespace Counting

theorem skip {expanded : Bool} (h : p.Counting root ((r, expanded) :: stack) t)
    (hr : t.isCounted r = true) : p.Counting root stack t where
  holds := h.holds
  known x hx := h.known x (List.mem_cons_of_mem _ hx)
  reached x hx := h.reached x (List.mem_cons_of_mem _ hx)
  chained := h.chained.of_cons
  active {q} hq := by
    rcases List.mem_cons.1 (h.active hq) with heq | hmem
    · cases heq
      obtain ⟨n, hn⟩ := Tally.isCounted_iff.1 hr
      rw [hq] at hn
      cases hn
    · exact hmem
  counted := h.counted
  owed := h.owed.2.mono (Set.insert_subset hr (Set.Subset.refl _))

/-- An open entry on top of the stack has all its sources counted. -/
theorem counts (h : p.Counting root ((r, true) :: stack) t) : p.Counts r (p.countAt t r) := by
  rw [countAt]
  cases hterms : p.terms r with
  | none => exact .once hterms
  | some ts =>
    show p.Counts r (t.total ts)
    rw [t.total_eq]
    refine .total hterms fun q hq => ?_
    obtain ⟨n, hn⟩ := Tally.isCounted_iff.1 (h.owed.1 rfl q ⟨ts, hterms, hq⟩)
    rw [Tally.count_of_mark hn]
    exact h.counted hn

theorem mark_setMark {expanded : Bool} {m : Mark} (h : p.Counting root ((r, expanded) :: stack) t) :
    (t.setMark r m).mark q = if q = r then m else t.mark q := by
  obtain ⟨k, hk⟩ := h.known _ List.mem_cons_self
  exact Tally.mark_setMark (h.holds hk)

theorem isCounted_setMark {expanded : Bool} {m : Mark}
    (h : p.Counting root ((r, expanded) :: stack) t) (hqr : q ≠ r) (hq : t.isCounted q = true) :
    (t.setMark r m).isCounted q = true := by
  obtain ⟨n, hn⟩ := Tally.isCounted_iff.1 hq
  refine Tally.isCounted_iff.2 ⟨n, ?_⟩
  rw [h.mark_setMark, if_neg hqr, hn]

theorem mem_of_active {expanded : Bool} (h : p.Counting root ((r, expanded) :: stack) t)
    (hqr : q ≠ r) (hq : t.mark q = .active) : (q, true) ∈ stack := by
  rcases List.mem_cons.1 (h.active hq) with heq | hmem
  · exact absurd (Prod.mk.inj heq).1 hqr
  · exact hmem

theorem finish (h : p.Counting root ((r, true) :: stack) t) (hn : p.Counts r n) :
    p.Counting root stack (t.setMark r (.counted n)) where
  holds hq := (h.holds hq).setMark
  known x hx := h.known x (List.mem_cons_of_mem _ hx)
  reached x hx := h.reached x (List.mem_cons_of_mem _ hx)
  chained := h.chained.of_cons
  active {q} hq := by
    rw [h.mark_setMark] at hq
    by_cases hqr : q = r
    · rw [if_pos hqr] at hq
      cases hq
    · rw [if_neg hqr] at hq
      exact h.mem_of_active hqr hq
  counted {q m} hq := by
    rw [h.mark_setMark] at hq
    by_cases hqr : q = r
    · rw [if_pos hqr] at hq
      obtain rfl := Mark.counted.inj hq
      rw [hqr]
      exact hn
    · rw [if_neg hqr] at hq
      exact h.counted hq
  owed := by
    have hr : (t.setMark r (.counted n)).isCounted r = true :=
      Tally.isCounted_iff.2 ⟨n, by rw [h.mark_setMark, if_pos rfl]⟩
    refine h.owed.2.mono (Set.insert_subset hr fun q hq => ?_)
    by_cases hqr : q = r
    · rw [hqr]
      exact hr
    · exact h.isCounted_setMark hqr hq

/-- An active entry that is met again before it is finished takes part in its own derivation. -/
theorem cycle (h : p.Counting root ((r, false) :: stack) t) (hr : t.mark r = .active) :
    ReflTransGen p.Feeds root r ∧ TransGen p.Feeds r r := by
  refine ⟨h.reached _ List.mem_cons_self, ?_⟩
  rcases List.mem_cons.1 (h.active hr) with heq | hmem
  · cases heq
  · exact List.rel_of_pairwise_cons h.chained hmem rfl

end Counting

theorem feeds_iff : p.Feeds r q ↔ q ∈ ((p.terms r).getD []).flatMap Term.refs := by
  rw [Feeds]
  cases p.terms r with
  | none => simp
  | some ts => simp

/-- The sources of an entry that are not counted yet, in the order in which they are met. -/
def openSources (p : Parsing) (t : Tally) (r : Ref) : List Ref :=
  ((((p.terms r).getD []).flatMap Term.refs).filter (!t.isCounted ·)).reverse

theorem mem_openSources : q ∈ p.openSources t r ↔ p.Feeds r q ∧ t.isCounted q = false := by
  rw [openSources, List.mem_reverse, List.mem_filter, feeds_iff, Bool.not_eq_true']

namespace Counting

variable {tokens : List Token}

/-- What is on the stack after an expansion is a source of the expanded entry or was there before. -/
theorem mem_expanded {x : Ref × Bool}
    (hx : x ∈ (p.openSources t r).map (·, false) ++ (r, true) :: stack) :
    (x.2 = false ∧ p.Feeds r x.1) ∨ ∃ y ∈ (r, false) :: stack, x.1 = y.1 := by
  rcases List.mem_append.1 hx with hx | hx
  · obtain ⟨q, hq, rfl⟩ := List.mem_map.1 hx
    exact Or.inl ⟨rfl, (mem_openSources.1 hq).1⟩
  · rcases List.mem_cons.1 hx with rfl | hx
    · exact Or.inr ⟨(r, false), List.mem_cons_self, rfl⟩
    · exact Or.inr ⟨x, List.mem_cons_of_mem _ hx, rfl⟩

/-- The open entries of the stack are above the sources of the entry that is expanded. -/
theorem chained_expand (h : p.Counting root ((r, false) :: stack) t) :
    ((p.openSources t r).map (·, false) ++ (r, true) :: stack).Pairwise
      fun x y => y.2 = true → TransGen p.Feeds y.1 x.1 := by
  have habove : ∀ y ∈ stack, y.2 = true → TransGen p.Feeds y.1 r := fun y hy =>
    List.rel_of_pairwise_cons h.chained hy
  refine List.pairwise_append.2 ⟨?_, List.pairwise_cons.2 ⟨habove, h.chained.of_cons⟩, ?_⟩
  · rw [List.pairwise_map]
    exact List.pairwise_of_forall fun _ _ => nofun
  · intro x hx y hy hopen
    obtain ⟨q, hq, rfl⟩ := List.mem_map.1 hx
    have hfeeds : p.Feeds r q := (mem_openSources.1 hq).1
    rcases List.mem_cons.1 hy with rfl | hy
    · exact .single hfeeds
    · exact (habove y hy hopen).tail hfeeds

/-- The sources that are not counted yet are put above the entry that they feed. -/
theorem owed_expand (h : p.Counting root ((r, false) :: stack) t) (hr : t.mark r = .unseen) :
    p.Owed root {q | (t.setMark r .active).isCounted q = true}
      ((p.openSources t r).map (·, false) ++ (r, true) :: stack) := by
  have hsub : {q | t.isCounted q = true} ⊆ {q | (t.setMark r .active).isCounted q = true} := by
    intro q hq
    apply h.isCounted_setMark _ hq
    rintro rfl
    obtain ⟨n, hn⟩ := Tally.isCounted_iff.1 hq
    rw [hr] at hn
    cases hn
  apply Owed.append
  refine ⟨fun _ q hq => ?_, h.owed.2.mono ?_⟩
  · by_cases hcounted : t.isCounted q = true
    · exact Or.inl (hsub hcounted)
    · exact Or.inr (mem_openSources.2 ⟨hq, Bool.eq_false_of_not_eq_true hcounted⟩)
  · exact Set.insert_subset_insert (hsub.trans Set.subset_union_left)

/-- An entry that is met for the first time is opened, with its sources to come before it. -/
theorem expand (hp : p.Accepts tokens) (h : p.Counting root ((r, false) :: stack) t)
    (hr : t.mark r = .unseen) :
    p.Counting root ((p.openSources t r).map (·, false) ++ (r, true) :: stack)
      (t.setMark r .active) where
  holds hq := (h.holds hq).setMark
  known x hx := by
    rcases mem_expanded hx with ⟨-, hfeeds⟩ | ⟨y, hy, heq⟩
    · exact hp.exists_key?_of_feeds hfeeds
    · rw [heq]
      exact h.known y hy
  reached x hx := by
    rcases mem_expanded hx with ⟨-, hfeeds⟩ | ⟨y, hy, heq⟩
    · exact (h.reached _ List.mem_cons_self).tail hfeeds
    · rw [heq]
      exact h.reached y hy
  chained := h.chained_expand
  active {q} hq := by
    apply List.mem_append_right
    rw [h.mark_setMark] at hq
    by_cases hqr : q = r
    · rw [hqr]
      exact List.mem_cons_self
    · rw [if_neg hqr] at hq
      exact List.mem_cons_of_mem _ (h.mem_of_active hqr hq)
  counted {q n} hq := by
    rw [h.mark_setMark] at hq
    by_cases hqr : q = r
    · rw [if_pos hqr] at hq
      cases hq
    · rw [if_neg hqr] at hq
      exact h.counted hq
  owed := h.owed_expand hr

end Counting

theorem sum_add_le {α : Type} {l : List α} {f g : α → Nat} {a : α} {d : Nat} (ha : a ∈ l)
    (hle : ∀ b, f b ≤ g b) (hd : f a + d ≤ g a) : (l.map f).sum + d ≤ (l.map g).sum := by
  induction l with
  | nil => cases ha
  | cons b l ih =>
    simp only [List.map_cons, List.sum_cons]
    rcases List.mem_cons.1 ha with rfl | ha
    · have hrest : (l.map f).sum ≤ (l.map g).sum := List.sum_le_sum fun c _ => hle c
      omega
    · have hhead := hle b
      have hrest := ih ha
      omega

/-- What expanding an entry puts on the stack, at most: the entry itself and two sources for each
antecedent. -/
def cost (p : Parsing) (r : Ref) : Nat :=
  ((p.chart.entry? r).map fun e => 1 + 2 * e.antecedents.size).getD 0

/-- The cost of the entries that are not expanded yet. -/
def remaining (p : Parsing) (t : Tally) : Nat :=
  (p.chart.refs.map fun r => if t.mark r = .unseen then p.cost r else 0).sum

theorem length_openSources {e : Entry} (he : p.chart.entry? r = some e) :
    (p.openSources t r).length + 1 ≤ p.cost r := by
  have hcost : p.cost r = 1 + 2 * e.antecedents.size := by rw [cost, he]; rfl
  have hfilter : (p.openSources t r).length ≤ (((p.terms r).getD []).flatMap Term.refs).length := by
    rw [openSources, List.length_reverse]
    exact List.length_filter_le _ _
  have hrefs : ∀ ts : List Term, (ts.flatMap Term.refs).length ≤ 2 * ts.length := by
    intro ts
    induction ts with
    | nil => exact Nat.le_refl 0
    | cons term ts ih =>
      obtain ⟨source, _ | caller⟩ := term
      all_goals
        simp only [List.flatMap_cons, List.length_append, List.length_cons, Term.refs,
          Option.toList_none, Option.toList_some, List.length_nil]
        omega
  have hterms : ((p.terms r).getD []).length ≤ e.antecedents.size := by
    rw [terms, he, Option.bind_some]
    cases hts : p.termsOf e with
    | none => exact Nat.zero_le _
    | some ts =>
      have hle := (sources_sublist hts).length_le
      rwa [List.length_map, Array.length_toList] at hle
  have hle := hrefs ((p.terms r).getD [])
  omega

theorem mem_refs {k : Key} (h : p.chart.key? r = some k) : r ∈ p.chart.refs := by
  obtain ⟨e, he, -⟩ := Chart.exists_entry?_of_key? h
  refine List.mem_flatMap.2 ⟨r.position, List.mem_range.2 (Chart.lt_size_of_entry he), ?_⟩
  exact List.mem_map.2 ⟨r.index, List.mem_range.2 (Chart.index_lt_of_entry he), rfl⟩

theorem map_range_getElem? {α : Type} (a : Array α) (f : Option α → Nat) :
    (List.range a.size).map (fun i => f a[i]?) = a.toList.map fun x => f (some x) := by
  refine List.ext_getElem (by simp) fun i h h' => ?_
  simp only [List.length_map, List.length_range] at h
  simp [h]

theorem remaining_ofChart : 1 + p.remaining (Tally.ofChart p.chart) = p.countFuel := by
  let total : Option StateSet → Nat := fun s =>
    ((s.getD {}).entries.toList.map fun e => 1 + 2 * e.antecedents.size).sum
  have hset : ∀ i, ((List.range (p.chart.set i).size).map fun k => p.cost ⟨i, k⟩).sum =
      total p.chart.sets[i]? := by
    intro i
    refine congrArg List.sum (Eq.trans ?_ (map_range_getElem? (p.chart.set i).entries
      fun e => (e.map fun e => 1 + 2 * e.antecedents.size).getD 0))
    refine List.map_congr_left fun k _ => ?_
    rw [cost, Chart.entry?_eq]
  have hsets : (p.chart.refs.map p.cost).sum =
      ((List.range p.chart.sets.size).map fun i => total p.chart.sets[i]?).sum := by
    rw [Chart.refs, List.map_flatMap, List.flatMap_def, List.sum_flatten, List.map_map]
    refine congrArg List.sum (List.map_congr_left fun i _ => ?_)
    rw [← hset, Function.comp, List.map_map]
    rfl
  simp only [remaining, Tally.mark_ofChart, if_true]
  rw [hsets, map_range_getElem?]
  rfl

/-- A mark on an entry takes its cost off what remains, if it was not off already. -/
theorem remaining_setMark {k : Key} {m : Mark} (hk : p.chart.key? r = some k) (hr : t.Holds r)
    (hm : m ≠ .unseen) :
    p.remaining (t.setMark r m) + (if t.mark r = .unseen then p.cost r else 0) ≤ p.remaining t := by
  refine sum_add_le (mem_refs hk) (fun q => ?_) ?_
  · rw [Tally.mark_setMark hr]
    by_cases hqr : q = r
    · rw [if_pos hqr, if_neg hm]
      exact Nat.zero_le _
    · rw [if_neg hqr]
  · rw [Tally.mark_setMark hr, if_pos rfl, if_neg hm, Nat.zero_add]

theorem counting_start {tokens : List Token} (hp : p.Accepts tokens) :
    p.Counting p.accept [(p.accept, false)] (Tally.ofChart p.chart) where
  holds := Tally.holds_ofChart
  known x hx := by
    obtain rfl := List.mem_singleton.1 hx
    exact ⟨_, hp.key?_accept⟩
  reached x hx := by
    obtain rfl := List.mem_singleton.1 hx
    exact .refl
  chained := List.pairwise_singleton _ _
  active h := by simp at h
  counted h := by simp at h
  owed := ⟨nofun, Or.inl rfl⟩

end Parsing

end GrammarFlow
