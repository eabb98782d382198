import GrammarFlow.Proofs.Json.Pretty
import GrammarFlow.Proofs.Tree.Addresses
import GrammarFlow.Tree.Display

namespace GrammarFlow

open Json

def NodeName.ofValue? : Value → Option NodeName
  | .object members =>
    match members.lookup "kind", members.lookup "symbol" with
    | some (.string "NonTerminal"), some (.string name) => some (.nonTerminal name)
    | some (.string "Terminal"), some (.string name) => some (.terminal name)
    | _, _ => none
  | _ => none

def Span.ofValue? : Value → Option Span
  | .object members =>
    match members.lookup "low", members.lookup "high" with
    | some (.number (.integer (.ofNat low))), some (.number (.integer (.ofNat high))) =>
      some ⟨low, high⟩
    | _, _ => none
  | _ => none

namespace Tree

/-- A lexeme may be absent. -/
def lexemeOf? : Option Value → Option (Option String)
  | none => some none
  | some (.string lexeme) => some (some lexeme)
  | some _ => none

mutual

def ofValue? : Value → Option Tree
  | .object members => do
    let name ← (members.lookup "name").bind NodeName.ofValue?
    let span ← (members.lookup "span").bind Span.ofValue?
    let lexeme ← lexemeOf? (members.lookup "lexeme")
    let children ← childrenOf? members
    return .node name span lexeme children
  | _ => none

/-- The children, of which there are none if the member is absent. -/
def childrenOf? : List (String × Value) → Option (List Tree)
  | [] => some []
  | (key, v) :: rest => if key = "children" then listOf? v else childrenOf? rest

def listOf? : Value → Option (List Tree)
  | .array values => forestOf? values
  | _ => none

def forestOf? : List Value → Option (List Tree)
  | [] => some []
  | v :: rest => do
    let t ← ofValue? v
    let ts ← forestOf? rest
    return t :: ts

end

def ofJson? (text : String) : Option Tree := (readValue text).toOption.bind ofValue?

/-- The bounds of all spans are numbers of 64 bits. -/
def Fits (t : Tree) : Prop := ∀ x ∈ t.preorder, x.2.span.low < Nat.pow 2 64 ∧ x.2.span.high < Nat.pow 2 64

theorem fits_iff (t : Tree) : t.Fits ↔
    (t.span.low < Nat.pow 2 64 ∧ t.span.high < Nat.pow 2 64) ∧ ∀ c ∈ t.children, c.Fits := by
  have hnodes : ∀ t : Tree, t.Fits ↔ ∀ s ∈ t.nodes, s.span.low < Nat.pow 2 64 ∧ s.span.high < Nat.pow 2 64 := by
    intro t
    rw [Fits, nodes, ← preorder_eq, List.forall_mem_map]
  simp only [hnodes]
  rw [nodes_eq, List.forall_mem_cons, List.forall_mem_flatMap]

theorem forestValues_eq (ts : List Tree) : forestValues ts = ts.map toValue := by
  induction ts with
  | nil => rw [forestValues, List.map_nil]
  | cons t rest ih => rw [forestValues, ih, List.map_cons]

def members (t : Tree) : List (String × Value) :=
  [("name", nameJson t.name), ("span", t.span.toJson)] ++
    (t.lexeme.map fun l => ("lexeme", Value.string l)).toList ++
    (if t.children.isEmpty then [] else [("children", .array (t.children.map toValue))])

theorem toValue_eq (t : Tree) : t.toValue = .object t.members := by
  cases t
  rw [toValue, forestValues_eq]
  rfl

theorem isExact_nameJson (name : NodeName) : (nameJson name).IsExact := by
  cases name with
  | nonTerminal name => exact .object (by simp) (by simp [Value.IsExact.string])
  | terminal name => exact .object (by simp) (by simp [Value.IsExact.string])

theorem isExact_span {span : Span} (h : span.low < Nat.pow 2 64 ∧ span.high < Nat.pow 2 64) :
    span.toJson.IsExact := by
  have hlow : (Value.number (.integer span.low)).IsExact := .natural (Nat.le_sub_one_of_lt h.1)
  have hhigh : (Value.number (.integer span.high)).IsExact := .natural (Nat.le_sub_one_of_lt h.2)
  exact .object (by simp) (by simp [hlow, hhigh])

theorem nodup_members (t : Tree) : (t.members.map (·.1)).Nodup := by
  obtain ⟨name, span, lexeme, children⟩ := t
  cases lexeme <;> cases children <;> simp [members, Tree.lexeme, Tree.children]

theorem isExact_toValue {t : Tree} (h : t.Fits) : t.toValue.IsExact := by
  induction t using of_children with
  | h t ih =>
    obtain ⟨hspan, hchildren⟩ := t.fits_iff.1 h
    have hforest : (Value.array (t.children.map toValue)).IsExact := by
      refine .array fun v hv => ?_
      obtain ⟨c, hc, rfl⟩ := List.mem_map.1 hv
      exact ih c hc (hchildren c hc)
    rw [toValue_eq]
    refine .object t.nodup_members fun m hm => ?_
    rw [members, List.mem_append, List.mem_append] at hm
    rcases hm with (hm | hm) | hm
    · rcases List.mem_pair.1 hm with rfl | rfl
      · exact isExact_nameJson t.name
      · exact isExact_span hspan
    · obtain ⟨l, -, rfl⟩ := Option.map_eq_some_iff.1 (Option.mem_toList.1 hm)
      exact .string l
    · split at hm
      · cases hm
      · obtain rfl := List.mem_singleton.1 hm
        exact hforest

theorem forestOf?_map {ts : List Tree} (h : ∀ t ∈ ts, ofValue? t.toValue = some t) :
    forestOf? (ts.map toValue) = some ts := by
  induction ts with
  | nil => rw [List.map_nil, forestOf?]
  | cons t rest ih =>
    rw [List.map_cons, forestOf?, h t List.mem_cons_self,
      ih fun s hs => h s (List.mem_cons_of_mem t hs)]
    rfl

theorem ofValue?_nameJson (name : NodeName) : NodeName.ofValue? (nameJson name) = some name := by
  cases name <;> rfl

theorem ofValue?_toJson (span : Span) : Span.ofValue? span.toJson = some span := rfl

theorem lexemeOf?_members (t : Tree) : lexemeOf? (t.members.lookup "lexeme") = some t.lexeme := by
  obtain ⟨name, span, lexeme, children⟩ := t
  cases lexeme <;> cases children <;> rfl

theorem childrenOf?_members {t : Tree} (h : forestOf? (t.children.map toValue) = some t.children) :
    childrenOf? t.members = some t.children := by
  have hother : ∀ (key : String) (v : Value) (rest : List (String × Value)), key ≠ "children" →
      childrenOf? ((key, v) :: rest) = childrenOf? rest := by
    intro key v rest hkey
    rw [childrenOf?, if_neg hkey]
  have hlast : childrenOf? (if t.children.isEmpty then []
      else [("children", .array (t.children.map toValue))]) = some t.children := by
    split
    · next hempty => rw [List.isEmpty_iff.1 hempty, childrenOf?]
    · rw [childrenOf?, if_pos rfl, listOf?, h]
  rw [members, List.append_assoc, List.cons_append, List.singleton_append,
    hother "name" _ _ (by decide), hother "span" _ _ (by decide)]
  cases t.lexeme with
  | none => exact hlast
  | some l => exact (hother "lexeme" _ _ (by decide)).trans hlast

/-- Whatever the kind, the lexeme and the children, the members tell them. -/
theorem ofValue?_toValue (t : Tree) : ofValue? t.toValue = some t := by
  induction t using of_children with
  | h t ih =>
    have hname : (t.members.lookup "name").bind NodeName.ofValue? = some t.name :=
      ofValue?_nameJson t.name
    have hspan : (t.members.lookup "span").bind Span.ofValue? = some t.span := ofValue?_toJson t.span
    rw [toValue_eq, ofValue?, hname, hspan, t.lexemeOf?_members,
      childrenOf?_members (forestOf?_map ih)]
    cases t
    rfl

theorem ofJson?_toJson {t : Tree} (h : t.Fits) : ofJson? t.toJson = some t := by
  rw [ofJson?, toJson, readValue_pretty (isExact_toValue h)]
  exact t.ofValue?_toValue

end Tree

/-- The text of a tree is read back, as JSON, as the value that it was printed from, and the members of
the value determine the tree: name and kind, span, lexeme and children. So trees with one text are one
tree. -/
theorem Tree.toJson_determines {t : Tree} (h : t.Fits) :
    readValue t.toJson = .ok t.toValue ∧ ofValue? t.toValue = some t ∧ ofJson? t.toJson = some t ∧
      ∀ s : Tree, s.Fits → s.toJson = t.toJson → s = t := by
  refine ⟨readValue_pretty (isExact_toValue h) 0, t.ofValue?_toValue, ofJson?_toJson h,
    fun s hs htext => ?_⟩
  have hread := ofJson?_toJson hs
  rw [htext, ofJson?_toJson h] at hread
  exact (Option.some.inj hread).symm

/-- A token with children, a lexeme that is empty, and nodes that differ in their kind alone. -/
def uneven : Tree :=
  .node (.terminal "\"a\"\n") ⟨0, 18446744073709551615⟩ (some "") [
    .node (.nonTerminal "B") ⟨2, 1⟩ (some "\\ │ \t") [],
    .node (.terminal "B") ⟨2, 1⟩ none [.node (.nonTerminal "B") ⟨2, 1⟩ none []]]

theorem uneven_determined : uneven.Fits ∧ Tree.ofJson? uneven.toJson = some uneven ∧
    ∀ s : Tree, s.Fits → s.toJson = uneven.toJson → s = uneven := by
  have hfits : uneven.Fits := by
    unfold Tree.Fits
    decide +kernel
  obtain ⟨-, -, hread, hunique⟩ := Tree.toJson_determines hfits
  exact ⟨hfits, hread, hunique⟩

end GrammarFlow
