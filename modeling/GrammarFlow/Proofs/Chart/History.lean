import GrammarFlow.Proofs.Chart.Store
import GrammarFlow.Proofs.Distinct

namespace GrammarFlow

/-- The calls that change a chart. -/
inductive Update
  | addSet
  | push (position : Nat) (vertex : Vertex) (origin : Nat) (source : Option Ref)
  | addCaller (caller : Ref) (nonTerminal : Nat)
deriving DecidableEq

namespace Update

variable {i n : Nat} {k : Key} {a : Ref} {u : Update} {updates : List Update}

/-- The key that is pushed at a position. -/
def key? (i : Nat) : Update → Option Key
  | push position vertex origin _ => if position = i then some ⟨vertex, origin⟩ else none
  | _ => none

def source? (i : Nat) (k : Key) : Update → Option Ref
  | push position vertex origin source =>
    if position = i ∧ (⟨vertex, origin⟩ : Key) = k then source else none
  | _ => none

def place? (i n : Nat) : Update → Option Nat
  | addCaller caller nonTerminal => if caller.position = i ∧ nonTerminal = n then some caller.index else none
  | _ => none

/-- There is a set, among as many as there are, for the position of the update. -/
def Fits (size : Nat) : Update → Prop
  | addSet => True
  | push position .. => position < size
  | addCaller caller _ => caller.position < size

/-- Each update finds a set for its position, where there are some before the first one. -/
def AllFit (size : Nat) : List Update → Prop
  | [] => True
  | u :: rest => u.Fits size ∧ AllFit (if u = addSet then size + 1 else size) rest

theorem allFit_append {size : Nat} {more : List Update} : AllFit size (updates ++ more) ↔
    AllFit size updates ∧ AllFit (size + updates.count addSet) more := by
  induction updates generalizing size with
  | nil => exact (and_iff_right trivial).symm
  | cons u rest ih =>
    rw [List.cons_append, AllFit, AllFit, ih, and_assoc, List.count_cons]
    by_cases hu : u = addSet
    · have hsize : size + (rest.count addSet + 1) = size + 1 + rest.count addSet := by omega
      rw [if_pos hu, if_pos (beq_iff_eq.2 hu), hsize]
    · rw [if_neg hu, if_neg (mt beq_iff_eq.1 hu), Nat.add_zero]

def apply (c : Chart) : Update → Chart
  | addSet => c.addSet
  | push position vertex origin source => c.push position vertex origin source
  | addCaller caller nonTerminal => c.addCaller caller nonTerminal

theorem firsts_source?_eq_nil (h : k ∉ firsts (key? i) updates) : firsts (source? i k) updates = [] := by
  rw [List.eq_nil_iff_forall_not_mem]
  intro a ha
  obtain ⟨u, hu, hsource⟩ := mem_firsts.1 ha
  refine h (mem_firsts.2 ⟨u, hu, ?_⟩)
  cases u with
  | addSet => cases hsource
  | push position vertex origin source =>
    simp only [source?] at hsource
    split at hsource
    · next hkey => rw [key?, if_pos hkey.1, hkey.2]
    · cases hsource
  | addCaller caller nonTerminal => cases hsource

end Update

namespace StateSet

variable {s : StateSet} {v : Vertex} {o : Nat} {source : Option Ref} {k : Key}

theorem consistent_iff : s.Consistent ↔
    s.keys.Nodup ∧ ∀ k : Key, s.find? k.vertex k.origin = s.keys.idxOf? k := by
  constructor
  · intro hs
    refine ⟨hs.nodup_keys, fun k => Option.ext fun place => ?_⟩
    rw [hs k place, ← getElem?_keys, idxOf?_eq_some_iff_getElem? hs.nodup_keys]
  · rintro ⟨hnodup, hfind⟩ k place
    rw [hfind, idxOf?_eq_some_iff_getElem? hnodup, getElem?_keys]

theorem Consistent.find?_eq_none_iff (hs : s.Consistent) : s.find? v o = none ↔ ⟨v, o⟩ ∉ s.keys := by
  obtain ⟨-, hfind⟩ := consistent_iff.1 hs
  rw [hfind ⟨v, o⟩, List.idxOf?_eq_none_iff]

theorem Consistent.keys_push (hs : s.Consistent) :
    (s.push v o source).keys = appendNew s.keys (some ⟨v, o⟩) := by
  rw [appendNew]
  split
  · next hmem =>
    obtain ⟨place, hfind⟩ := Option.ne_none_iff_exists'.1 (mt hs.find?_eq_none_iff.1 (not_not_intro hmem))
    apply List.ext_getElem?
    intro j
    rw [getElem?_keys, getElem?_keys, getElem?_push_of_some hfind]
    split
    · rw [Option.map_map]
      simp only [Function.comp_def, Entry.key_link]
    · rfl
  · next hmem =>
    simp only [keys, StateSet.push, hs.find?_eq_none_iff.2 hmem]
    exact (congrArg (List.map Entry.key) Array.toList_push).trans List.map_append

theorem toList_addPlace (places : Array Nat) (place : Nat) :
    (addPlace places place).toList = appendNew places.toList (some place) := by
  rw [addPlace, apply_ite Array.toList, Array.toList_push, appendNew]
  simp

end StateSet

theorem Entry.toList_link (e : Entry) (source : Option Ref) :
    (e.link source).antecedents.toList = appendNew e.antecedents.toList source := by
  cases source with
  | none => rfl
  | some a =>
    rw [link, apply_ite Entry.antecedents, apply_ite Array.toList, Array.toList_push, appendNew]
    simp

namespace Chart

def replay (updates : List Update) : Chart := updates.foldl Update.apply initial

/-- The chart holds what the updates have put into it, each thing once. -/
structure Recorded (updates : List Update) (c : Chart) : Prop where
  size_eq : c.size = updates.count .addSet + 1
  keys_eq : ∀ i, (c.set i).keys = firsts (Update.key? i) updates
  find?_eq : ∀ i (k : Key),
    c.find? i k.vertex k.origin = ((firsts (Update.key? i) updates).idxOf? k).map (⟨i, ·⟩)
  antecedents_eq : ∀ r e, c.entry? r = some e →
    e.antecedents.toList = firsts (Update.source? r.position e.key) updates
  callers_eq : ∀ i n, ((c.set i).callers n).toList = firsts (Update.place? i n) updates

variable {c : Chart} {updates : List Update}

theorem Recorded.of_consistent (hc : c.Consistent) (size_eq : c.size = updates.count .addSet + 1)
    (keys_eq : ∀ i, (c.set i).keys = firsts (Update.key? i) updates)
    (antecedents_eq : ∀ r e, c.entry? r = some e →
      e.antecedents.toList = firsts (Update.source? r.position e.key) updates)
    (callers_eq : ∀ i n, ((c.set i).callers n).toList = firsts (Update.place? i n) updates) :
    Recorded updates c where
  size_eq := size_eq
  keys_eq := keys_eq
  find?_eq i k := by
    obtain ⟨-, hfind⟩ := StateSet.consistent_iff.1 (hc i)
    rw [Chart.find?_eq, hfind k, keys_eq i]
  antecedents_eq := antecedents_eq
  callers_eq := callers_eq

theorem recorded_initial : Recorded [] initial := by
  refine .of_consistent consistent_initial rfl (fun i => ?_) (fun r e he => ?_) fun i n => ?_
  · rw [set_initial]
    rfl
  · rw [entry?_eq, set_initial] at he
    cases he
  · rw [set_initial]
    simp [StateSet.callers, Std.TreeMap.getD_emptyc, firsts]

namespace Recorded

theorem consistent (h : Recorded updates c) : c.Consistent := by
  intro i
  rw [StateSet.consistent_iff, h.keys_eq]
  refine ⟨nodup_eraseDups _, fun k => ?_⟩
  have hfind := h.find?_eq i k
  rw [Chart.find?_eq] at hfind
  exact Option.map_injective (fun a b hab => (Ref.mk.inj hab).2) hfind

theorem addSet (h : Recorded updates c) : Recorded (updates ++ [.addSet]) c.addSet := by
  refine .of_consistent (fun i => ?_) ?_ (fun i => ?_) (fun r e he => ?_) fun i n => ?_
  · rw [set_addSet]
    exact h.consistent i
  · rw [size_addSet, h.size_eq, List.count_append, List.count_singleton_self]
  · rw [set_addSet, h.keys_eq, firsts_concat]
    rfl
  · rw [entry?_addSet] at he
    rw [h.antecedents_eq r e he, firsts_concat]
    rfl
  · rw [set_addSet, h.callers_eq, firsts_concat]
    rfl

/-- Only the key that is pushed has its antecedents changed, and it alone is new. -/
theorem push {i o : Nat} {v : Vertex} {source : Option Ref} (h : Recorded updates c)
    (hi : i < c.size) : Recorded (updates ++ [.push i v o source]) (c.push i v o source) := by
  refine .of_consistent (h.consistent.push hi) ?_ (fun j => ?_) (fun r e he => ?_) fun j n => ?_
  · rw [size_push, h.size_eq, List.count_append]
    rfl
  · rw [set_push hi, firsts_concat, ← h.keys_eq j, Update.key?]
    split
    · exact (h.consistent j).keys_push
    · rfl
  · rw [firsts_concat, Update.source?]
    split
    · next hkey =>
      obtain ⟨hr, hk⟩ := hkey
      rcases entry?_push_of_key h.consistent hi he hr.symm hk.symm with ⟨e', he', -, rfl⟩ | ⟨hnone, ha⟩
      · rw [Entry.toList_link, Entry.key_link, h.antecedents_eq r e' he']
      · have hnew : e.key ∉ firsts (Update.key? r.position) updates := by
          rw [h.find?_eq i ⟨v, o⟩, Option.map_eq_none_iff, List.idxOf?_eq_none_iff] at hnone
          rwa [← hr, ← hk]
        rw [Update.firsts_source?_eq_nil hnew, ha]
        cases source <;> rfl
    · next hkey =>
      rcases entry?_push h.consistent hi he with hold | ⟨e', -, hr, hk, rfl⟩ | ⟨rfl, rfl⟩
      · exact h.antecedents_eq r e hold
      · exact absurd ⟨hr.symm, ((e'.key_link source).trans hk).symm⟩ hkey
      · exact absurd ⟨rfl, rfl⟩ hkey
  · rw [callers_push, h.callers_eq, firsts_concat]
    rfl

theorem addCaller {r : Ref} {n : Nat} (h : Recorded updates c) (hr : r.position < c.size) :
    Recorded (updates ++ [.addCaller r n]) (c.addCaller r n) := by
  refine .of_consistent (h.consistent.addCaller hr) ?_ (fun j => ?_) (fun q e he => ?_) fun j m => ?_
  · rw [size_addCaller, h.size_eq, List.count_append]
    rfl
  · rw [set_addCaller hr, firsts_concat, ← h.keys_eq j]
    split <;> rfl
  · rw [entry?_addCaller hr] at he
    rw [h.antecedents_eq q e he, firsts_concat]
    rfl
  · rw [set_addCaller hr, firsts_concat, ← h.callers_eq j m, Update.place?]
    by_cases hj : r.position = j
    · rw [if_pos hj, StateSet.callers_addCaller]
      by_cases hn : n = m
      · rw [if_pos hn, if_pos ⟨hj, hn⟩]
        exact StateSet.toList_addPlace _ _
      · rw [if_neg hn, if_neg fun h => hn h.2, appendNew]
    · rw [if_neg hj, if_neg fun h => hj h.1, appendNew]

theorem apply {u : Update} (h : Recorded updates c) (hu : u.Fits c.size) :
    Recorded (updates ++ [u]) (u.apply c) := by
  cases u with
  | addSet => exact h.addSet
  | push position vertex origin source => exact h.push hu
  | addCaller caller nonTerminal => exact h.addCaller hu

theorem key?_of_prefix {c' : Chart} {before : List Update} (h : Recorded updates c)
    (hbefore : Recorded before c') (hle : before <+: updates) {r : Ref} {k : Key}
    (hr : c'.key? r = some k) : c.key? r = some k := by
  obtain ⟨after, rfl⟩ := hle
  rw [key?, entry?_eq, ← StateSet.getElem?_keys] at hr ⊢
  rw [hbefore.keys_eq] at hr
  obtain ⟨rest, hrest⟩ := firsts_prefix (Update.key? r.position) before after
  rwa [h.keys_eq, ← hrest, List.getElem?_append_left (List.getElem?_eq_some_iff.1 hr).1]

end Recorded

theorem sortedKeys_perm (c : Chart) (i : Nat) : (c.sortedKeys i).Perm (c.set i).keys :=
  List.mergeSort_perm _ _

theorem Consistent.pairwise_sortedKeys (hc : c.Consistent) (i : Nat) :
    (c.sortedKeys i).Pairwise fun k k' => Key.cmp k k' = .lt := by
  have htotal : ∀ k k', ((Key.cmp k k').isLE || (Key.cmp k' k).isLE) = true := by
    intro k k'
    rw [Bool.or_eq_true, or_iff_not_imp_left]
    intro hnot
    exact Ordering.isLE_of_eq_lt (Std.OrientedCmp.lt_of_not_isLE hnot)
  have hsorted := pairwise_mergeSort_of_nodup (fun k k' => (Key.cmp k k').isLE)
    (fun _ _ _ => Std.TransCmp.isLE_trans) htotal (hc i).nodup_keys
  refine hsorted.imp fun ⟨hle, hne⟩ => ?_
  exact (Ordering.isLE_iff_eq_lt_or_eq_eq.1 hle).resolve_right (mt Std.LawfulEqCmp.eq_of_compare hne)

end Chart

end GrammarFlow
