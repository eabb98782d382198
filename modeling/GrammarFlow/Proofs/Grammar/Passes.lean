import GrammarFlow.Grammar.Declaration
import GrammarFlow.Proofs.Grammar.NameTable

namespace GrammarFlow

namespace Grammar

def alternativesOf (g : Grammar) (nonTerminal : Nat) : List Nat :=
  (g.productions.toList.filter (·.lhs == nonTerminal)).map (·.id)

variable {g : Grammar}

theorem mem_alternativesOf {n i : Nat} :
    i ∈ g.alternativesOf n ↔ ∃ p ∈ g.productions, p.lhs = n ∧ p.id = i := by
  simp only [alternativesOf, List.mem_map, List.mem_filter, Array.mem_toList_iff, beq_iff_eq,
    and_assoc]

theorem getElem?_productionRows (size : Nat) (productions : List Production) (k : Nat) :
    (productionRows size productions.toArray)[k]? = if k < size then
      some ((productions.filter (·.lhs == k)).map (·.id)).toArray else none := by
  -- By induction from the last production, which is put at the end of one row.
  rw [productionRows, List.foldl_toArray]
  induction productions using List.reverseRecOn with
  | nil =>
    rw [List.foldl_nil, Array.getElem?_replicate]
    rfl
  | append_singleton productions p ih =>
    rw [List.foldl_concat, Array.getElem?_modify, ih]
    by_cases hk : p.lhs = k
    · split <;> simp_all
    · simp [hk]

theorem alternatives?_eq (n : Nat) : g.alternatives? n =
    if n < g.nonTerminals.size then some (g.alternativesOf n) else none := by
  have hrow := getElem?_productionRows g.nonTerminals.size g.productions.toList n
  rw [alternatives?, alternatives, Array.getElem?_map, hrow]
  split <;> rfl

theorem alternatives?_eq_some_iff {n : Nat} {ids : List Nat} :
    g.alternatives? n = some ids ↔ n < g.nonTerminals.size ∧ ids = g.alternativesOf n := by
  rw [alternatives?_eq, Option.ite_none_right_eq_some, Option.some.injEq, eq_comm (a := ids)]

theorem size_productionRows (size : Nat) (productions : Array Production) :
    (productionRows size productions).size = size := by
  rw [productionRows]
  refine Array.foldl_induction (fun _ (rows : Array (Array Nat)) => rows.size = size)
    Array.size_replicate ?_
  intro i rows h
  rw [Array.size_modify, h]

theorem isEmpty_productionRows {size k : Nat} {productions : Array Production}
    (hk : k < (productionRows size productions).size) :
    (productionRows size productions)[k].isEmpty = true ↔ ∀ p ∈ productions, p.lhs ≠ k := by
  have hrow := getElem?_productionRows size productions.toList k
  rw [Array.toArray_toList, Array.getElem?_eq_getElem hk,
    if_pos (Nat.lt_of_lt_of_eq hk (size_productionRows size productions))] at hrow
  rw [Option.some.inj hrow]
  simp

theorem findIdx?_productionRows_eq_none {size : Nat} {productions : Array Production}
    (h : ∀ k < size, ∃ p ∈ productions, p.lhs = k) :
    (productionRows size productions).findIdx? (·.isEmpty) = none := by
  rw [Array.findIdx?_eq_none_iff]
  intro row hmem
  obtain ⟨k, hk, rfl⟩ := Array.mem_iff_getElem.1 hmem
  rw [← Bool.not_eq_true, isEmpty_productionRows]
  obtain ⟨p, hp, hlhs⟩ := h k (Nat.lt_of_lt_of_eq hk (size_productionRows size productions))
  exact fun hnone => hnone p hp hlhs

theorem findIdx?_productionRows_eq_some {size m : Nat} {productions : Array Production} (hm : m < size)
    (hnone : ∀ p ∈ productions, p.lhs ≠ m) (h : ∀ k < m, ∃ p ∈ productions, p.lhs = k) :
    (productionRows size productions).findIdx? (·.isEmpty) = some m := by
  rw [Array.findIdx?_eq_some_iff_getElem]
  refine ⟨Nat.lt_of_lt_of_eq hm (size_productionRows size productions).symm, ?_, fun k hk => ?_⟩
  · rwa [isEmpty_productionRows]
  · rw [isEmpty_productionRows]
    obtain ⟨p, hp, hlhs⟩ := h k hk
    exact fun hnone => hnone p hp hlhs

end Grammar

namespace Declaration

/-- The left-hand sides, in order of appearance. -/
def headTable (d : Declaration) : NameTable := NameTable.empty.insertAll (d.rules.map (·.1))

/-- The symbol that a name stands for, given the terminals and the non-terminals. -/
def symbolOf (terminals nonTerminals : NameTable) (name : String) : Symbol :=
  match terminals.id? name with
  | some id => .terminal id
  | none => .nonTerminal (nonTerminals.names.idxOf name)

def productionOf (terminals nonTerminals : NameTable) (id : Nat) (rule : String × List String) :
    Production :=
  ⟨id, nonTerminals.names.idxOf rule.1, rule.2.map (symbolOf terminals nonTerminals)⟩

def productionsOf (terminals nonTerminals : NameTable) (rules : List (String × List String)) :
    Array Production :=
  (rules.mapIdx (productionOf terminals nonTerminals)).toArray

/-- The first name on a right-hand side that is neither a terminal nor a non-terminal. -/
def undefined? (terminals nonTerminals : NameTable) (rules : List (String × List String)) :
    Option String :=
  (rules.flatMap (·.2)).find? fun name => !terminals.contains name && !nonTerminals.contains name

/-- What is built, in closed form: every name is looked up among the left-hand sides, and the first that is
not there is the non-terminal without productions. -/
def outcome (d : Declaration) : Except GrammarError Grammar :=
  match d.rules with
  | [] => .error .emptyGrammar
  | (firstLhs, _) :: _ =>
    let terminals := d.terminalTable
    let nonTerminals := d.headTable
    match (d.rules.map (·.1)).find? terminals.contains with
    | some lhs => .error (.nameCollision lhs)
    | none =>
      let startName := d.start.getD firstLhs
      if terminals.contains startName then .error (.nameCollision startName)
      else
        match nonTerminals.id? startName with
        | none => .error (.undefinedStart startName)
        | some start =>
          match undefined? terminals nonTerminals d.rules with
          | some name => .error (.missingProductions name)
          | none => .ok
              { name := d.name
                start
                terminals
                nonTerminals
                productions := productionsOf terminals nonTerminals d.rules }

variable {terminals nonTerminals : NameTable} {rules : List (String × List String)}

theorem mem_headTable {d : Declaration} {name : String} :
    name ∈ d.headTable.names ↔ name ∈ d.rules.map (·.1) := by
  rw [headTable, NameTable.mem_insertAll]
  exact or_iff_right (by simp [NameTable.empty])

theorem getElem?_productionsOf (i : Nat) :
    (productionsOf terminals nonTerminals rules)[i]? =
      (rules[i]?).map (productionOf terminals nonTerminals i) := by
  simp [productionsOf]

theorem symbolOf_mem {name : String}
    (h : terminals.contains name = true ∨ nonTerminals.contains name = true) :
    (∀ {t}, symbolOf terminals nonTerminals name = .terminal t → t < terminals.size) ∧
      ∀ {n}, symbolOf terminals nonTerminals name = .nonTerminal n → n < nonTerminals.size := by
  cases hid : terminals.id? name with
  | some id =>
    simp only [symbolOf, hid, Symbol.terminal.injEq, reduceCtorEq, IsEmpty.forall_iff,
      implies_true, and_true]
    rintro t rfl
    exact NameTable.id?_lt hid
  | none =>
    simp only [symbolOf, hid, Symbol.nonTerminal.injEq, reduceCtorEq, IsEmpty.forall_iff,
      implies_true, true_and]
    rintro n rfl
    have hnot : name ∉ terminals.names := by
      intro hmem
      have := NameTable.id?_isSome_iff.2 hmem
      simp [hid] at this
    simp only [NameTable.contains_iff] at h
    exact NameTable.idxOf_lt (h.resolve_left hnot)

theorem contains_of_undefined? (h : undefined? terminals nonTerminals rules = none)
    {rule : String × List String} (hr : rule ∈ rules) {name : String} (hn : name ∈ rule.2) :
    terminals.contains name = true ∨ nonTerminals.contains name = true := by
  have hname := List.find?_eq_none.1 h name (List.mem_flatMap.2 ⟨rule, hr, hn⟩)
  simp only [Bool.and_eq_true, Bool.not_eq_true'] at hname
  by_contra hc
  rw [not_or, Bool.not_eq_true, Bool.not_eq_true] at hc
  exact hname hc

variable {t heads : NameTable} {names : List String} {name : String}

theorem enterHeads_eq (terminals t : NameTable) (rules : List (String × List String)) :
    enterHeads terminals t rules = match (rules.map (·.1)).find? terminals.contains with
      | some lhs => .error (.nameCollision lhs)
      | none => .ok (t.insertAll (rules.map (·.1))) := by
  induction rules generalizing t with
  | nil => rfl
  | cons rule rules ih =>
    rw [enterHeads, List.map_cons, List.find?_cons]
    cases terminals.contains rule.1 with
    | true => rfl
    | false => exact ih _

/-- The names that a rule enters: its left-hand side, and what is not a terminal on the right. -/
def entering (terminals : NameTable) (rule : String × List String) : List String :=
  rule.1 :: rule.2.filter (!terminals.contains ·)

theorem enterNames_snd (terminals t : NameTable) (names : List String) :
    (enterNames terminals t names).2 = t.insertAll (names.filter (!terminals.contains ·)) := by
  induction names generalizing t with
  | nil => rfl
  | cons name names ih =>
    rw [enterNames]
    cases hid : terminals.id? name with
    | some id =>
      have hcontains : terminals.contains name = true :=
        NameTable.contains_iff.2 (NameTable.id?_isSome_iff.1 (Option.isSome_of_eq_some hid))
      rw [List.filter_cons_of_neg (by simp [hcontains])]
      exact ih t
    | none =>
      have hcontains : terminals.contains name = false := by
        rw [← Bool.not_eq_true, NameTable.contains_iff]
        exact NameTable.id?_eq_none_iff.1 hid
      rw [List.filter_cons_of_pos (by simp [hcontains])]
      exact ih _

theorem enterRule_fst (terminals t : NameTable) (productions : Array Production)
    (rule : String × List String) :
    (enterRule terminals (t, productions) rule).1 = t.insertAll (entering terminals rule) :=
  enterNames_snd terminals _ rule.2

theorem foldl_enterRule_fst (terminals t : NameTable) (productions : Array Production) :
    (rules.foldl (enterRule terminals) (t, productions)).1 =
      t.insertAll (rules.flatMap (entering terminals)) := by
  induction rules generalizing t productions with
  | nil => rfl
  | cons rule rules ih =>
    rw [List.foldl_cons, List.flatMap_cons, NameTable.insertAll_append,
      ← enterRule_fst terminals t productions]
    exact ih _ _

/-- Where all names are declared, the second pass enters none. -/
theorem enterNames_of_declared (h : ∀ name ∈ names, terminals.contains name = true ∨ name ∈ t.names) :
    enterNames terminals t names = (names.map (symbolOf terminals t), t) := by
  induction names with
  | nil => rfl
  | cons name names ih =>
    have hrest := ih fun other hother => h other (List.mem_cons_of_mem name hother)
    rw [enterNames, List.map_cons, symbolOf]
    cases hid : terminals.id? name with
    | some id =>
      dsimp only
      rw [hrest]
    | none =>
      have hmem : name ∈ t.names := by
        refine (h name List.mem_cons_self).resolve_left fun hcontains => ?_
        rw [NameTable.contains_iff] at hcontains
        exact NameTable.id?_eq_none_iff.1 hid hcontains
      rw [NameTable.insert, dif_pos hmem]
      dsimp only
      rw [hrest]

theorem foldl_enterRule_of_declared (hheads : ∀ rule ∈ rules, rule.1 ∈ t.names)
    (h : ∀ rule ∈ rules, ∀ name ∈ rule.2, terminals.contains name = true ∨ name ∈ t.names)
    (productions : Array Production) :
    (rules.foldl (enterRule terminals) (t, productions)).2.toList = productions.toList ++
      rules.mapIdx fun i => productionOf terminals t (productions.size + i) := by
  induction rules generalizing productions with
  | nil => exact (List.append_nil _).symm
  | cons rule rules ih =>
    have hstep : enterRule terminals (t, productions) rule =
        (t, productions.push (productionOf terminals t productions.size rule)) := by
      rw [enterRule, NameTable.insert, dif_pos (hheads rule List.mem_cons_self)]
      dsimp only
      rw [enterNames_of_declared (h rule List.mem_cons_self)]
      rfl
    rw [List.foldl_cons, hstep, ih (fun r hr => hheads r (List.mem_cons_of_mem rule hr))
      fun r hr => h r (List.mem_cons_of_mem rule hr)]
    rw [Array.toList_push, Array.size_push, List.mapIdx_cons, List.append_assoc]
    simp only [Nat.add_zero, Nat.add_assoc, Nat.add_comm 1, List.singleton_append]

/-- A left-hand side keeps the number that the first pass gave it. -/
theorem map_lhs_foldl_enterRule (hheads : ∀ rule ∈ rules, rule.1 ∈ heads.names)
    (hkept : ∀ name ∈ heads.names, t.id? name = some (heads.names.idxOf name))
    (productions : Array Production) :
    (rules.foldl (enterRule terminals) (t, productions)).2.toList.map (·.lhs) =
      productions.toList.map (·.lhs) ++ rules.map fun rule => heads.names.idxOf rule.1 := by
  induction rules generalizing t productions with
  | nil => exact (List.append_nil _).symm
  | cons rule rules ih =>
    have hid := hkept rule.1 (hheads rule List.mem_cons_self)
    have hmem : rule.1 ∈ t.names := NameTable.id?_isSome_iff.1 (Option.isSome_of_eq_some hid)
    have hlhs : (t.insert rule.1).1 = heads.names.idxOf rule.1 := by
      rw [← NameTable.insert_snd_of_mem hmem, NameTable.id?_insert_self] at hid
      exact Option.some.inj hid
    have hkept' : ∀ name ∈ heads.names, (enterRule terminals (t, productions) rule).1.id? name =
        some (heads.names.idxOf name) := by
      intro name hname
      rw [enterRule_fst]
      exact NameTable.id?_insertAll (hkept name hname) _
    have hpushed : (enterRule terminals (t, productions) rule).2.toList.map (·.lhs) =
        productions.toList.map (·.lhs) ++ [heads.names.idxOf rule.1] := by
      rw [enterRule, Array.toList_push, List.map_append, List.map_singleton, hlhs]
    have hrest := ih (fun r hr => hheads r (List.mem_cons_of_mem rule hr)) hkept'
      (enterRule terminals (t, productions) rule).2
    rw [hpushed, List.append_assoc] at hrest
    exact hrest

/-- The first name without rules gets the number after the left-hand sides. -/
theorem name?_insertAll_of_find? (h : names.find? (!heads.contains ·) = some name) :
    (heads.insertAll names).name? heads.size = some name := by
  obtain ⟨hname, before, after, rfl, hbefore⟩ := List.find?_eq_some_iff_append.1 h
  have hold : heads.insertAll before = heads := by
    refine NameTable.insertAll_of_mem fun other hother => ?_
    have hmem := hbefore other hother
    rwa [Bool.not_not, NameTable.contains_iff] at hmem
  have hnew : name ∉ heads.names := by
    rw [← NameTable.contains_iff]
    simpa using hname
  have hfirst : (heads.insert name).1 = heads.size := by
    rw [NameTable.insert, dif_neg hnew]
  have hid : (heads.insert name).2.id? name = some heads.size := by
    rw [NameTable.id?_insert_self, hfirst]
  rw [NameTable.insertAll_append, hold]
  exact NameTable.id?_eq_some_iff.1 (NameTable.id?_insertAll hid after)

theorem find?_entering (hheads : ∀ rule ∈ rules, rule.1 ∈ heads.names) :
    (rules.flatMap (entering terminals)).find? (!heads.contains ·) = undefined? terminals heads rules := by
  induction rules with
  | nil => rfl
  | cons rule rules ih =>
    have hhead : heads.contains rule.1 = true :=
      NameTable.contains_iff.2 (hheads rule List.mem_cons_self)
    rw [List.flatMap_cons, List.find?_append, ih fun r hr => hheads r (List.mem_cons_of_mem rule hr),
      undefined?, undefined?, List.flatMap_cons, List.find?_append, entering, List.find?_cons, hhead,
      List.find?_filter]
    simp only [Bool.not_true, Bool.decide_and, Bool.decide_eq_true]

theorem enterRules_of_undefined?_eq_none (hheads : ∀ rule ∈ rules, rule.1 ∈ heads.names)
    (h : undefined? terminals heads rules = none) :
    enterRules terminals heads rules = (heads, productionsOf terminals heads rules) := by
  have hdeclared : ∀ rule ∈ rules, ∀ name ∈ rule.2,
      terminals.contains name = true ∨ name ∈ heads.names := by
    intro rule hrule name hname
    rw [← NameTable.contains_iff]
    exact contains_of_undefined? h hrule hname
  have htable : (enterRules terminals heads rules).1 = heads := by
    rw [← find?_entering hheads, List.find?_eq_none] at h
    refine (foldl_enterRule_fst terminals heads #[]).trans (NameTable.insertAll_of_mem ?_)
    intro name hname
    have hcontains := h name hname
    rwa [Bool.not_eq_true, Bool.not_eq_false', NameTable.contains_iff] at hcontains
  have hproductions := foldl_enterRule_of_declared hheads hdeclared #[]
  refine Prod.ext htable (Array.ext' ?_)
  rw [enterRules, hproductions, productionsOf]
  simp

theorem lhs_mem_headTable (d : Declaration) : ∀ rule ∈ d.rules, rule.1 ∈ d.headTable.names :=
  fun _ hrule => mem_headTable.2 (List.mem_map_of_mem hrule)

/-- The rows that are filled are those of the left-hand sides. -/
theorem exists_lhs_enterRules_iff (d : Declaration) {k : Nat} :
    (∃ p ∈ (enterRules d.terminalTable d.headTable d.rules).2, p.lhs = k) ↔ k < d.headTable.size := by
  have hlhs : (enterRules d.terminalTable d.headTable d.rules).2.toList.map (·.lhs) =
      d.rules.map fun rule => d.headTable.names.idxOf rule.1 :=
    map_lhs_foldl_enterRule d.lhs_mem_headTable (fun name hname => NameTable.id?_eq_idxOf hname) #[]
  simp only [← Array.mem_toList_iff, ← List.mem_map, hlhs]
  constructor
  · intro hmem
    obtain ⟨rule, hrule, rfl⟩ := List.mem_map.1 hmem
    exact NameTable.idxOf_lt (d.lhs_mem_headTable rule hrule)
  · intro hk
    obtain ⟨rule, hrule, heq⟩ := List.mem_map.1 (mem_headTable.1 (Array.getElem_mem hk))
    refine List.mem_map.2 ⟨rule, hrule, ?_⟩
    rw [heq, NameTable.idxOf_getElem hk]

/-- The first empty row is that of the first name without rules. -/
theorem findIdx?_productionRows_enterRules (d : Declaration) {nonTerminals : NameTable}
    {productions : Array Production}
    (h : enterRules d.terminalTable d.headTable d.rules = (nonTerminals, productions)) :
    ((productionRows nonTerminals.size productions).findIdx? (·.isEmpty)).map
        (fun n => (nonTerminals.name? n).getD "?") =
      undefined? d.terminalTable d.headTable d.rules := by
  have hfilled : ∀ {k}, (∃ p ∈ productions, p.lhs = k) ↔ k < d.headTable.size := by
    obtain rfl : _ = productions := congrArg Prod.snd h
    exact d.exists_lhs_enterRules_iff
  cases hundefined : undefined? d.terminalTable d.headTable d.rules with
  | none =>
    rw [enterRules_of_undefined?_eq_none d.lhs_mem_headTable hundefined, Prod.mk.injEq] at h
    rw [← h.1, Grammar.findIdx?_productionRows_eq_none fun k => hfilled.2, Option.map_none]
  | some name =>
    -- The second pass has entered the name right behind the left-hand sides, with no row before it empty.
    have hname : nonTerminals.name? d.headTable.size = some name := by
      obtain rfl : _ = nonTerminals := congrArg Prod.fst h
      rw [enterRules, foldl_enterRule_fst]
      exact name?_insertAll_of_find? ((find?_entering d.lhs_mem_headTable).trans hundefined)
    have hlt : d.headTable.size < nonTerminals.size := (Array.getElem?_eq_some_iff.1 hname).1
    have hempty : ∀ p ∈ productions, p.lhs ≠ d.headTable.size := fun p hp heq =>
      Nat.lt_irrefl _ (hfilled.1 ⟨p, hp, heq⟩)
    rw [Grammar.findIdx?_productionRows_eq_some hlt hempty fun k => hfilled.2, Option.map_some, hname,
      Option.getD_some]

/-- The two passes and the table of rows come to the closed form. -/
theorem build_eq_outcome (d : Declaration) : d.build = d.outcome := by
  have hhead : NameTable.empty.insertAll (d.rules.map (·.1)) = d.headTable := rfl
  unfold build outcome
  cases hrules : d.rules with
  | nil => rfl
  | cons rule rest =>
    dsimp only
    rw [← hrules, enterHeads_eq, hhead]
    cases (d.rules.map (·.1)).find? d.terminalTable.contains with
    | some lhs => rfl
    | none =>
      dsimp only
      split
      · rfl
      · cases d.headTable.id? (d.start.getD rule.1) with
        | none => rfl
        | some start =>
          dsimp only
          obtain ⟨⟨nonTerminals, productions⟩, hpasses⟩ :
              ∃ passes, enterRules d.terminalTable d.headTable d.rules = passes := ⟨_, rfl⟩
          have hmissing := findIdx?_productionRows_enterRules d hpasses
          rw [hpasses]
          cases hundefined : undefined? d.terminalTable d.headTable d.rules with
          | none =>
            rw [hundefined, Option.map_eq_none_iff] at hmissing
            have hall := enterRules_of_undefined?_eq_none d.lhs_mem_headTable hundefined
            rw [hpasses, Prod.mk.injEq] at hall
            rw [hmissing, hall.1, hall.2]
          | some name =>
            rw [hundefined, Option.map_eq_some_iff] at hmissing
            obtain ⟨n, hrow, hname⟩ := hmissing
            simp only [hrow, hname]

end Declaration

end GrammarFlow
