import Mathlib.Data.List.Induction
import Mathlib.Data.List.Nodup

namespace GrammarFlow

section

variable {α : Type} [DecidableEq α]

theorem eraseDups_of_nodup {l : List α} (h : l.Nodup) : l.eraseDups = l := by
  induction l with
  | nil => exact List.eraseDups_nil
  | cons a l ih =>
    obtain ⟨ha, hl⟩ := List.nodup_cons.1 h
    have hfilter : l.filter (fun b => !b == a) = l := by
      apply List.filter_eq_self.2
      intro b hb
      rw [Bool.not_eq_true', beq_eq_false_iff_ne]
      exact ne_of_mem_of_not_mem hb ha
    rw [List.eraseDups_cons, hfilter, ih hl]

theorem eraseDups_concat (l : List α) (a : α) :
    (l ++ [a]).eraseDups = if a ∈ l then l.eraseDups else l.eraseDups ++ [a] := by
  rw [List.eraseDups_append, List.removeAll]
  split
  · next h => simp [h]
  · next h => simp [h, List.eraseDups_cons]

theorem nodup_eraseDups (l : List α) : l.eraseDups.Nodup := by
  induction l using List.reverseRecOn with
  | nil => exact List.nodup_nil
  | append_singleton l a ih =>
    rw [eraseDups_concat]
    split
    · exact ih
    · next h =>
      rw [(List.perm_append_singleton a _).nodup_iff]
      exact List.nodup_cons.2 ⟨mt List.mem_eraseDups.1 h, ih⟩

end

section

variable {α β : Type} [DecidableEq β] {f : α → Option β} {l : List α} {a : α} {b : β}

/-- An element is put last unless it is there. -/
def appendNew (l : List β) : Option β → List β
  | none => l
  | some b => if b ∈ l then l else l ++ [b]

/-- What the elements yield, each result once, in the order of the first times. -/
def firsts (f : α → Option β) (l : List α) : List β := (l.filterMap f).eraseDups

theorem mem_firsts : b ∈ firsts f l ↔ ∃ a ∈ l, f a = some b := by
  rw [firsts, List.mem_eraseDups, List.mem_filterMap]

theorem firsts_concat : firsts f (l ++ [a]) = appendNew (firsts f l) (f a) := by
  rw [firsts, List.filterMap_append]
  cases h : f a with
  | none => rw [List.filterMap_cons_none h, List.filterMap_nil, List.append_nil, firsts, appendNew]
  | some b =>
    rw [List.filterMap_cons_some h, List.filterMap_nil, eraseDups_concat, firsts, appendNew]
    simp only [List.mem_eraseDups]

theorem firsts_prefix (f : α → Option β) (l m : List α) : firsts f l <+: firsts f (l ++ m) := by
  rw [firsts, firsts, List.filterMap_append, List.eraseDups_append]
  exact List.prefix_append _ _

end

theorem pairwise_mergeSort_of_nodup {α : Type} (le : α → α → Bool) {l : List α}
    (htrans : ∀ a b c, le a b = true → le b c = true → le a c = true)
    (htotal : ∀ a b, (le a b || le b a) = true) (h : l.Nodup) :
    (l.mergeSort le).Pairwise fun a b => le a b = true ∧ a ≠ b :=
  (List.pairwise_mergeSort htrans htotal l).and ((List.mergeSort_perm l le).nodup_iff.2 h)

end GrammarFlow
