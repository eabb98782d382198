import GrammarFlow.Proofs.Grammar.Names
import Mathlib.Data.List.TakeWhile

namespace GrammarFlow

section Contiguous

variable {α β : Type} {f : α → β} {l : List α}

/-- What stands between two elements of one kind is of that kind too. -/
def Contiguous (f : α → β) (l : List α) : Prop :=
  ∀ a b c, [a, b, c].Sublist l → f a = f c → f b = f a

theorem Contiguous.sublist {m : List α} (h : Contiguous f l) (hm : m.Sublist l) :
    Contiguous f m := fun a b c hsub => h a b c (hsub.trans hm)

variable [DecidableEq β]

theorem Contiguous.exists_append {a : α} (h : Contiguous f (a :: l)) : ∃ u v, l = u ++ v ∧
    (∀ b ∈ u, f b = f a) ∧ ∀ b ∈ v, f b ≠ f a := by
  refine ⟨l.takeWhile (f · == f a), l.dropWhile (f · == f a), (List.takeWhile_append_dropWhile).symm,
    fun b hb => ?_, ?_⟩
  · simpa using List.mem_takeWhile_imp hb
  · cases hv : l.dropWhile (f · == f a) with
    | nil => nofun
    | cons c w =>
      have hne : f c ≠ f a := by
        have hhead := List.head?_dropWhile_not (f · == f a) l
        rw [hv] at hhead
        simpa using hhead
      intro b hb
      rcases List.mem_cons.1 hb with rfl | hb
      · exact hne
      -- An element of the first kind behind would have `c` between it and the first one.
      · intro heq
        have hsub : (c :: w).Sublist l := hv ▸ List.dropWhile_sublist _
        have hbetween : [a, c, b].Sublist (a :: l) :=
          (((List.singleton_sublist.2 hb).cons_cons c).trans hsub).cons_cons a
        exact hne (h a c b hbetween heq.symm)

theorem filter_eq_nil_of_ne {x : β} (h : ∀ b ∈ l, f b ≠ x) : l.filter (f · == x) = [] := by
  rw [List.filter_eq_nil_iff]
  intro b hb
  simpa using h b hb

theorem filter_eq_self_of_eq {x : β} (h : ∀ b ∈ l, f b = x) : l.filter (f · == x) = l := by
  rw [List.filter_eq_self]
  intro b hb
  simpa using h b hb

theorem eraseDups_map_append {a : α} {u v : List α} (hu : ∀ b ∈ u, f b = f a)
    (hv : ∀ b ∈ v, f b ≠ f a) :
    ((a :: (u ++ v)).map f).eraseDups = f a :: (v.map f).eraseDups := by
  have hfirst : (u.map f).filter (fun x => !x == f a) = [] := by
    rw [List.filter_eq_nil_iff]
    intro x hx
    obtain ⟨b, hb, rfl⟩ := List.mem_map.1 hx
    simpa using hu b hb
  have hrest : (v.map f).filter (fun x => !x == f a) = v.map f := by
    rw [List.filter_eq_self]
    intro x hx
    obtain ⟨b, hb, rfl⟩ := List.mem_map.1 hx
    simpa using hv b hb
  rw [List.map_cons, List.eraseDups_cons, List.map_append, List.filter_append, hfirst, hrest,
    List.nil_append]

/-- The elements taken kind by kind are the elements in order. -/
theorem Contiguous.flatMap_filter (h : Contiguous f l) :
    (l.map f).eraseDups.flatMap (fun x => l.filter (f · == x)) = l := by
  induction hn : l.length using Nat.strongRecOn generalizing l with
  | ind n ih =>
    cases l with
    | nil => rfl
    | cons a l =>
      obtain ⟨u, v, rfl, hu, hv⟩ := h.exists_append
      have hsub : v.Sublist (a :: (u ++ v)) := ((List.sublist_append_right u v).cons a)
      have hlt : v.length < n := by
        rw [← hn, List.length_cons, List.length_append]
        omega
      -- The first kind takes its elements from the front, the others from the rest.
      have hfirst : (a :: (u ++ v)).filter (f · == f a) = a :: u := by
        rw [List.filter_cons_of_pos (by simp), List.filter_append, filter_eq_self_of_eq hu,
          filter_eq_nil_of_ne hv, List.append_nil]
      have hrest : ∀ x ∈ (v.map f).eraseDups,
          (a :: (u ++ v)).filter (f · == x) = v.filter (f · == x) := by
        intro x hx
        obtain ⟨b, hb, rfl⟩ := List.mem_map.1 (List.mem_eraseDups.1 hx)
        have hne : ∀ c ∈ a :: u, f c ≠ f b := by
          intro c hc
          rcases List.mem_cons.1 hc with rfl | hc
          · exact (hv b hb).symm
          · rw [hu c hc]
            exact (hv b hb).symm
        rw [← List.cons_append, List.filter_append, filter_eq_nil_of_ne hne, List.nil_append]
      rw [eraseDups_map_append hu hv, List.flatMap_cons, hfirst, List.flatMap_congr hrest,
        ih v.length hlt (h.sublist hsub) rfl, List.cons_append]

end Contiguous

namespace Grammar

variable {d : Declaration} {g : Grammar}

def IsContiguous (g : Grammar) : Prop := Contiguous (·.lhs) g.productions.toList

def lhsName (g : Grammar) (p : Production) : String := g.nonTerminalName p.lhs

theorem name?_terminals {a : Nat} (h : a < g.terminals.size) :
    g.terminals.name? a = some (g.terminalName a) := by
  rw [terminalName, NameTable.name?, Array.getElem?_eq_getElem h, Option.getD_some]

theorem name?_nonTerminals {n : Nat} (h : n < g.nonTerminals.size) :
    g.nonTerminals.name? n = some (g.nonTerminalName n) := by
  rw [nonTerminalName, NameTable.name?, Array.getElem?_eq_getElem h, Option.getD_some]

theorem nonTerminalName_inj {n m : Nat} (hn : n < g.nonTerminals.size)
    (hm : m < g.nonTerminals.size) (h : g.nonTerminalName n = g.nonTerminalName m) : n = m := by
  have hid := NameTable.id?_eq_some_iff.2 (name?_nonTerminals hn)
  rw [h, NameTable.id?_eq_some_iff.2 (name?_nonTerminals hm)] at hid
  exact (Option.some.inj hid).symm

theorem IsContiguous.lhsName (hg : g.WellFormed) (h : g.IsContiguous) :
    Contiguous g.lhsName g.productions.toList := by
  intro p q r hsub heq
  have hlt : ∀ x ∈ [p, q, r], x.lhs < g.nonTerminals.size := fun x hx =>
    hg.lhs_lt (Array.mem_toList_iff.1 (hsub.subset hx))
  have hlhs : p.lhs = r.lhs := nonTerminalName_inj (hlt p (by simp)) (hlt r (by simp)) heq
  exact congrArg g.nonTerminalName (h p q r hsub hlhs)

theorem eraseDups_lhsNames (h : d.build = .ok g) :
    (g.productions.toList.map g.lhsName).eraseDups = g.nonTerminals.names.toList := by
  obtain ⟨startName, hvalid, rfl⟩ := Declaration.build_eq_ok_iff.1 h
  have hnames : (d.grammarFrom startName).productions.toList.map (d.grammarFrom startName).lhsName =
      d.rules.map (·.1) := by
    rw [← hvalid.namedRules_grammarFrom, namedRules, List.map_map]
    rfl
  rw [hnames, ← NameTable.toList_names_insertAll]
  rfl

theorem IsContiguous.flatMap_alternatives (hg : d.build = .ok g) (h : g.IsContiguous) :
    g.nonTerminals.names.toList.flatMap
        (fun name => g.productions.toList.filter (g.lhsName · == name)) =
      g.productions.toList := by
  rw [← eraseDups_lhsNames hg]
  exact (h.lhsName (Declaration.wellFormed_of_build hg)).flatMap_filter

end Grammar

end GrammarFlow
