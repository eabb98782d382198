import GrammarFlow.Proofs.Tree.Addresses
import GrammarFlow.Tree.Display

namespace GrammarFlow

namespace Tree

def lastAt (t : Tree) (address : List Nat) : Bool :=
  (t.at? address.dropLast).any fun parent =>
    address.getLast?.any fun k => k + 1 == parent.children.length

/-- What stands for an ancestor: a line down to its next sibling, if it has one. -/
def group (last : Bool) : List Char :=
  if last then [' ', ' ', ' ', ' '] else ['│', ' ', ' ', ' ']

/-- What joins a node to its parent. -/
def joint (last : Bool) : List Char :=
  if last then ['└', '─', ' '] else ['├', '─', ' ']

/-- What stands before a label: nothing at the root; below it the groups of the ancestors at depth 1 and
more, from the top, and then the joint. -/
def guides (t : Tree) (address : List Nat) : List Char :=
  if address = [] then []
  else ((List.range' 1 (address.length - 1)).flatMap fun j => group (t.lastAt (address.take j))) ++
    joint (t.lastAt address)

def lineAt (t : Tree) (address : List Nat) : List Char :=
  t.guides address ++ ((t.at? address).map (·.label.toList)).getD []

theorem toList_continuation (last : Bool) : (continuation last).toList = group last := by
  cases last <;> rfl

theorem toList_connector (last : Bool) : (connector last).toList = joint last := by
  cases last <;> rfl

section

variable {t c : Tree} {k : Nat} {address : List Nat}

theorem lastAt_singleton (t : Tree) (k : Nat) :
    t.lastAt [k] = (k + 1 == t.children.length) := rfl

theorem lastAt_cons (hc : t.children[k]? = some c) (ha : address ≠ []) :
    t.lastAt (k :: address) = c.lastAt address := by
  rw [lastAt, lastAt, List.dropLast_cons_of_ne_nil ha, at?_cons hc, List.getLast?_cons_of_ne_nil ha]

theorem guides_singleton (t : Tree) (k : Nat) : t.guides [k] = joint (t.lastAt [k]) := rfl

theorem guides_cons (hc : t.children[k]? = some c) (ha : address ≠ []) :
    t.guides (k :: address) = group (t.lastAt [k]) ++ c.guides address := by
  obtain ⟨m, hm⟩ := Nat.exists_eq_add_one.2 (List.length_pos_iff.2 ha)
  -- The child's groups are those of the ancestors at depth 2 and more, one level up.
  have hplaces : List.range' 1 (m + 1) = 1 :: (List.range' 1 m).map (1 + ·) := by
    rw [List.range'_succ, List.map_add_range']
  have hgroups : ((List.range' 1 m).map (1 + ·)).flatMap
      (fun j => group (t.lastAt ((k :: address).take j))) =
        (List.range' 1 m).flatMap fun j => group (c.lastAt (address.take j)) := by
    rw [List.flatMap_map]
    refine List.flatMap_congr fun j hj => ?_
    obtain ⟨hpos, -⟩ := List.mem_range'_1.1 hj
    have hne : address.take j ≠ [] := by
      rw [ne_eq, List.take_eq_nil_iff, not_or]
      exact ⟨Nat.ne_of_gt hpos, ha⟩
    rw [Nat.add_comm, List.take_succ_cons, lastAt_cons hc hne]
  rw [guides, if_neg (List.cons_ne_nil k address), List.length_cons, hm, Nat.add_sub_cancel,
    hplaces, List.flatMap_cons, hgroups, lastAt_cons hc ha, guides, if_neg ha, hm,
    Nat.add_sub_cancel, List.append_assoc]
  rfl

theorem lineAt_cons (hc : t.children[k]? = some c) (ha : address ≠ []) :
    t.lineAt (k :: address) = group (t.lastAt [k]) ++ c.lineAt address := by
  rw [lineAt, guides_cons hc ha, at?_cons hc, List.append_assoc, lineAt]

theorem lineAt_singleton (hc : t.children[k]? = some c) :
    t.lineAt [k] = joint (t.lastAt [k]) ++ c.label.toList := by
  rw [lineAt, guides_singleton, at?_cons hc]
  rfl

theorem ne_nil_of_mem_tail (h : address ∈ t.addresses.tail) : address ≠ [] := by
  rw [addresses_eq] at h
  obtain ⟨x, -, hmem⟩ := List.mem_flatMap.1 h
  obtain ⟨below, -, rfl⟩ := List.mem_map.1 hmem
  exact List.cons_ne_nil _ _

/-- The lines of siblings, of which the first one has the given place. -/
theorem forestLines_eq (lead : String) (k : Nat) (ts : List Tree) :
    forestLines lead ts = (ts.zipIdx k).flatMap fun x =>
      (lead ++ connector (x.2 + 1 == k + ts.length) ++ x.1.label) ::
        x.1.linesBelow (lead ++ continuation (x.2 + 1 == k + ts.length)) := by
  induction ts generalizing k with
  | nil => rw [forestLines, List.zipIdx_nil, List.flatMap_nil]
  | cons t rest ih =>
    have hlength : k + (t :: rest).length = k + 1 + rest.length := by
      rw [List.length_cons]
      omega
    have hlast : (k + 1 == k + 1 + rest.length) = rest.isEmpty := by
      cases rest <;> simp
    rw [forestLines, List.zipIdx_cons, List.flatMap_cons, hlength, hlast, ← ih, List.cons_append]

theorem map_linesBelow (t : Tree) (lead : String) : (t.linesBelow lead).map String.toList =
    t.addresses.tail.map fun address => lead.toList ++ t.lineAt address := by
  induction t using of_children generalizing lead with
  | h t ih =>
    have hlines : t.linesBelow lead = forestLines lead t.children := by
      cases t
      rw [linesBelow, children]
    rw [hlines, forestLines_eq lead 0, List.map_flatMap]
    refine flatMap_zipIdx_children fun k c hc => ?_
    have hlast : (k + 1 == 0 + t.children.length) = t.lastAt [k] := by
      rw [Nat.zero_add, lastAt_singleton]
    have htail : c.addresses = [] :: c.addresses.tail := by rw [addresses_eq, List.tail_cons]
    rw [List.map_cons, ih c (List.mem_of_getElem? hc), htail, List.map_cons, List.tail_cons,
      lineAt_singleton hc]
    simp only [String.toList_append, toList_connector, toList_continuation, hlast,
      List.append_assoc]
    congr 1
    refine List.map_congr_left fun address haddress => ?_
    rw [lineAt_cons hc (ne_nil_of_mem_tail haddress)]

theorem map_lines (t : Tree) : t.lines.map String.toList = t.addresses.map t.lineAt := by
  rw [lines, List.map_cons, map_linesBelow, addresses_eq, List.map_cons]
  rfl

theorem newline_not_mem_guides (t : Tree) (address : List Nat) : '\n' ∉ t.guides address := by
  have hgroup : ∀ last, '\n' ∉ group last := by decide
  have hjoint : ∀ last, '\n' ∉ joint last := by decide
  rw [guides]
  split
  · exact List.not_mem_nil
  · rw [List.mem_append, List.mem_flatMap]
    rintro (⟨j, -, hj⟩ | hj)
    · exact hgroup _ hj
    · exact hjoint _ hj

/-- Between newlines the text has the lines of all addresses, if no label breaks its line. -/
theorem splitOn_display (hlabels : ∀ x ∈ t.preorder, '\n' ∉ x.2.label.toList) :
    t.display.toList.splitOn '\n' = t.addresses.map t.lineAt := by
  have hunbroken : ∀ line ∈ t.addresses.map t.lineAt, '\n' ∉ line := by
    intro line hline
    obtain ⟨address, haddress, rfl⟩ := List.mem_map.1 hline
    obtain ⟨node, hnode⟩ := Option.isSome_iff_exists.1 ((mem_addresses_iff t address).1 haddress)
    have hvisited : some (address.length, node) ∈ t.preorder.map some := by
      rw [map_preorder]
      refine List.mem_map.2 ⟨address, haddress, ?_⟩
      rw [hnode, Option.map_some]
    obtain ⟨x, hmem, hx⟩ := List.mem_map.1 hvisited
    rw [Option.some.inj hx] at hmem
    rw [lineAt, hnode, Option.map_some, Option.getD_some, List.mem_append, not_or]
    exact ⟨newline_not_mem_guides t address, hlabels (address.length, node) hmem⟩
  have hsome : t.addresses.map t.lineAt ≠ [] := by
    rw [addresses_eq]
    exact List.cons_ne_nil _ _
  rw [display, String.toList_intercalate, map_lines]
  exact List.splitOn_intercalate '\n' hunbroken hsome

end

end Tree

/-- What a text shows of a tree: its shape and its labels. -/
inductive Outline where
  | node (label : String) (children : List Outline)

mutual

def Tree.outline : Tree → Outline
  | .node name span lexeme children =>
    .node (label (.node name span lexeme children)) (outlines children)

def Tree.outlines : List Tree → List Outline
  | [] => []
  | t :: rest => t.outline :: outlines rest

end

theorem Tree.outline_eq (t : Tree) : t.outline = .node t.label (t.children.map outline) := by
  have hall : ∀ ts, outlines ts = ts.map outline := by
    intro ts
    induction ts with
    | nil => rw [outlines, List.map_nil]
    | cons t rest ih => rw [outlines, ih, List.map_cons]
  cases t
  rw [outline, hall, children]

namespace Outline

/-- The depth and the label that a line below the first one shows. -/
def readLine? : List Char → Option (Nat × String)
  | '└' :: '─' :: ' ' :: label => some (1, String.ofList label)
  | '├' :: '─' :: ' ' :: label => some (1, String.ofList label)
  | ' ' :: ' ' :: ' ' :: ' ' :: line => (readLine? line).map fun x => (x.1 + 1, x.2)
  | '│' :: ' ' :: ' ' :: ' ' :: line => (readLine? line).map fun x => (x.1 + 1, x.2)
  | _ => none

/-- Puts a node in front of the trees that follow it, of which the deeper ones are its children. -/
def attach (x : Nat × String) (rest : List (Nat × Outline)) : List (Nat × Outline) :=
  (x.1, .node x.2 ((rest.takeWhile (x.1 < ·.1)).map (·.2))) :: rest.dropWhile (x.1 < ·.1)

def ofText? (text : String) : Option Outline :=
  match text.toList.splitOn '\n' with
  | [] => none
  | root :: below => do
    let nodes ← below.mapM readLine?
    match ((0, String.ofList root) :: nodes).foldr attach [] with
    | [(_, outline)] => some outline
    | _ => none

theorem readLine?_group (last : Bool) (line : List Char) : readLine? (Tree.group last ++ line) =
    (readLine? line).map fun x => (x.1 + 1, x.2) := by
  cases last <;> rfl

theorem readLine?_joint (last : Bool) (label : String) :
    readLine? (Tree.joint last ++ label.toList) = some (1, label) := by
  have hlabel : some (1, String.ofList label.toList) = some (1, label) := by
    rw [String.ofList_toList]
  cases last <;> exact hlabel

/-- The line at an address shows its depth, and the label as it is. -/
theorem readLine?_lineAt {t node : Tree} {address : List Nat} (ha : address ≠ [])
    (hnode : t.at? address = some node) :
    readLine? (t.lineAt address) = some (address.length, node.label) := by
  induction address generalizing t with
  | nil => exact absurd rfl ha
  | cons k address ih =>
    obtain ⟨c, hc, hbelow⟩ := Option.bind_eq_some_iff.1 hnode
    cases address with
    | nil =>
      obtain rfl := Option.some.inj hbelow
      rw [Tree.lineAt_singleton hc, readLine?_joint]
      rfl
    | cons j address =>
      rw [Tree.lineAt_cons hc (List.cons_ne_nil j address), readLine?_group,
        ih (List.cons_ne_nil j address) hbelow]
      rfl

theorem attach_append {depth : Nat} {label : String} {below rest : List (Nat × Outline)}
    (hbelow : ∀ x ∈ below, depth < x.1) (hrest : ∀ x ∈ rest.head?, x.1 ≤ depth) :
    attach (depth, label) (below ++ rest) = (depth, .node label (below.map (·.2))) :: rest := by
  have hdeeper : ∀ x ∈ below, decide (depth < x.1) = true := fun x hx => decide_eq_true (hbelow x hx)
  rw [attach, List.takeWhile_append_of_pos hdeeper, List.dropWhile_append_of_pos hdeeper]
  cases rest with
  | nil => rw [List.takeWhile_nil, List.append_nil, List.dropWhile_nil]
  | cons x rest =>
    have hstop : ¬decide (depth < x.1) = true := by
      rw [decide_eq_true_iff]
      exact Nat.not_lt_of_le (hrest x rfl)
    have htake : (x :: rest).takeWhile (depth < ·.1) = [] := List.takeWhile_cons_of_neg hstop
    have hdrop : (x :: rest).dropWhile (depth < ·.1) = x :: rest := List.dropWhile_cons_of_neg hstop
    rw [htake, List.append_nil, hdrop]

/-- The nodes of siblings build the outlines of all of them, if the nodes of each build its own. -/
theorem foldr_attach_forest {ts : List Tree} {depth : Nat} {rest : List (Nat × Outline)}
    (hrest : ∀ x ∈ rest.head?, x.1 ≤ depth)
    (h : ∀ c ∈ ts, ∀ rest : List (Nat × Outline), (∀ x ∈ rest.head?, x.1 ≤ depth) →
      ((c.nodesFrom depth).map fun x => (x.1, x.2.label)).foldr attach rest =
        (depth, c.outline) :: rest) :
    ((Tree.forestNodesFrom ts depth).map fun x => (x.1, x.2.label)).foldr attach rest =
      (ts.map fun c => (depth, c.outline)) ++ rest := by
  induction ts with
  | nil => rfl
  | cons c ts ih =>
    -- What stands behind the first sibling begins with the next one, at the same depth.
    have hhead : ∀ x ∈ ((ts.map fun c => (depth, c.outline)) ++ rest).head?, x.1 ≤ depth := by
      cases ts with
      | nil => exact hrest
      | cons d ts =>
        intro x hx
        obtain rfl := Option.some.inj hx
        exact Nat.le_refl _
    rw [Tree.forestNodesFrom, List.map_append, List.foldr_append,
      ih fun d hd => h d (List.mem_cons_of_mem c hd), h c List.mem_cons_self _ hhead]
    rfl

/-- In front of trees that are not deeper, the nodes of a tree build its outline. -/
theorem foldr_attach (t : Tree) (depth : Nat) {rest : List (Nat × Outline)}
    (hrest : ∀ x ∈ rest.head?, x.1 ≤ depth) :
    ((t.nodesFrom depth).map fun x => (x.1, x.2.label)).foldr attach rest =
      (depth, t.outline) :: rest := by
  induction t using Tree.of_children generalizing depth rest with
  | h t ih =>
    have hforest := foldr_attach_forest (fun x hx => Nat.le_succ_of_le (hrest x hx))
      fun c hc rest => ih c hc (depth + 1)
    have hdeeper : ∀ x ∈ t.children.map fun c => (depth + 1, c.outline), depth < x.1 := by
      intro x hx
      obtain ⟨c, -, rfl⟩ := List.mem_map.1 hx
      exact Nat.lt_succ_self depth
    rw [Tree.nodesFrom_eq, List.map_cons, List.foldr_cons, hforest, attach_append hdeeper hrest,
      Tree.outline_eq, List.map_map]
    rfl

theorem mapM_readLine? (t : Tree) : (t.addresses.tail.map t.lineAt).mapM readLine? =
    some (t.preorder.tail.map fun x => (x.1, x.2.label)) := by
  have hlines : (t.addresses.tail.map t.lineAt).map readLine? =
      (t.preorder.tail.map fun x => (x.1, x.2.label)).map some := by
    have hvisited := congrArg (·.tail.map (Option.map fun x : Nat × Tree => (x.1, x.2.label)))
      t.map_preorder
    simp only [← List.map_tail, List.map_map] at hvisited
    rw [List.map_map, List.map_map]
    refine Eq.trans (List.map_congr_left fun address haddress => ?_) hvisited.symm
    obtain ⟨node, hnode⟩ := Option.isSome_iff_exists.1
      ((Tree.mem_addresses_iff t address).1 (List.mem_of_mem_tail haddress))
    rw [Function.comp_apply, Function.comp_apply, hnode,
      readLine?_lineAt (Tree.ne_nil_of_mem_tail haddress) hnode]
    rfl
  have hread : ∀ lines : List (List Char), lines.mapM readLine? = (lines.map readLine?).mapM id :=
    fun _ => (List.mapM_map (f := readLine?) (g := id)).symm
  rw [hread, hlines, List.mapM_map]
  exact (List.mapM_pure).trans (congrArg some (List.map_id _))

theorem ofText?_display {t : Tree} (hlabels : ∀ x ∈ t.preorder, '\n' ∉ x.2.label.toList) :
    ofText? t.display = some t.outline := by
  have hroot : t.preorder = (0, t) :: t.preorder.tail := by
    rw [Tree.preorder_eq, Tree.nodesFrom_eq]
    rfl
  have hlines : t.addresses.map t.lineAt = t.label.toList :: t.addresses.tail.map t.lineAt := by
    rw [Tree.addresses_eq]
    rfl
  have hnone : ∀ x ∈ ([] : List (Nat × Outline)).head?, x.1 ≤ 0 := nofun
  have hbuilt := foldr_attach t 0 hnone
  rw [← Tree.preorder_eq, hroot, List.map_cons] at hbuilt
  simp only [ofText?, Tree.splitOn_display hlabels, hlines, mapM_readLine?, String.ofList_toList,
    Option.bind_eq_bind, Option.bind_some, hbuilt]

end Outline

/-- If no label breaks its line, the displayed text has one line for each node, in preorder, with the
guides of its address and its label; and the text shows the shape and all labels of the tree, from which
`Outline.ofText?` reads them. -/
theorem Tree.display_shows (t : Tree) (hlabels : ∀ x ∈ t.preorder, '\n' ∉ x.2.label.toList) :
    t.display.toList.splitOn '\n' = t.addresses.map t.lineAt ∧
      t.preorder.map some =
        t.addresses.map (fun address => (t.at? address).map (address.length, ·)) ∧
      t.addresses.Pairwise (· < ·) ∧
      (∀ address, address ∈ t.addresses ↔ (t.at? address).isSome) ∧
      Outline.ofText? t.display = some t.outline :=
  ⟨splitOn_display hlabels, t.map_preorder, t.pairwise_addresses, t.mem_addresses_iff,
    Outline.ofText?_display hlabels⟩

def drawn : Tree :=
  .branch "S" ⟨0, 3⟩ [
    .branch "A" ⟨0, 2⟩ [.leaf "│   b" "└─ c" ⟨0, 1⟩, .branch "    B" ⟨1, 2⟩ [.leaf "c" "c" ⟨1, 2⟩]],
    .branch "C" ⟨2, 3⟩ [.leaf "d" "d" ⟨2, 3⟩]]

def drawing : String :=
  "S[0, 3]\n" ++
  "├─ A[0, 2]\n" ++
  "│   ├─ │   b[0, 1]: '└─ c'\n" ++
  "│   └─     B[1, 2]\n" ++
  "│       └─ c[1, 2]: 'c'\n" ++
  "└─ C[2, 3]\n" ++
  "    └─ d[2, 3]: 'd'"

theorem drawing_shows : drawn.display = drawing ∧ Outline.ofText? drawing =
    some (.node "S[0, 3]" [
      .node "A[0, 2]" [.node "│   b[0, 1]: '└─ c'" [],
        .node "    B[1, 2]" [.node "c[1, 2]: 'c'" []]],
      .node "C[2, 3]" [.node "d[2, 3]: 'd'" []]]) := by
  have hdisplay : drawn.display = drawing := by decide +kernel
  obtain ⟨-, -, -, -, houtline⟩ := drawn.display_shows (by decide +kernel)
  rw [hdisplay] at houtline
  exact ⟨hdisplay, houtline⟩

end GrammarFlow
