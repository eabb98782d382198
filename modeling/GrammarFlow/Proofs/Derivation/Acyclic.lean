import GrammarFlow.Proofs.Derivation.Walk

namespace GrammarFlow

namespace DerivationTree

/-- A child of a node, each with the token that it begins at. -/
inductive Child : DerivationTree × Nat → DerivationTree × Nat → Prop where
  | intro (q : Production) (ts : List DerivationTree) (t : DerivationTree)
    (us : List DerivationTree) (low : Nat) :
    Child (.node q (ts ++ t :: us), low) (t, low + (forestYield ts).length)

def label? : DerivationTree × Nat → Option (Nat × Span)
  | (.leaf _, _) => none
  | (.node q ts, low) => some (q.lhs, ⟨low, low + (forestYield ts).length⟩)

/-- On no way down from the root two nodes have the same non-terminal and the same span. -/
def Acyclic (t : DerivationTree) : Prop :=
  ∀ x y, Relation.ReflTransGen Child (t, 0) x → Relation.TransGen Child x y →
    ∀ label, label? x = some label → label? y ≠ some label

end DerivationTree

namespace Parsing

open DerivationTree Relation

variable {p : Parsing} {tokens : List Token} {r a q : Ref} {x y : DerivationTree × Nat}
  {w w' v : Walker} {event : Option Event} {returns : List ReturnPoint} {i : Nat}

/-- Below an entry that a tree is met at, its children are met. -/
theorem Meets.child (h : p.Meets x.1 x.2 r) (hxy : Child x y) : ∃ a, a < r ∧ p.Meets y.1 y.2 a := by
  obtain ⟨m, ts, t, us, low⟩ := hxy
  rw [Meets] at h
  obtain ⟨-, -, hbelow⟩ := h
  exact (meetsBelow_cons.1 (meetsBelow_append.1 hbelow).2).1

theorem Meets.below (h : p.Meets x.1 x.2 r) (hxy : TransGen Child x y) :
    ∃ a, a < r ∧ p.Meets y.1 y.2 a := by
  induction hxy with
  | single hstep => exact h.child hstep
  | tail _ hstep ih =>
    obtain ⟨a, hlt, ha⟩ := ih
    obtain ⟨b, hlt', hb⟩ := ha.child hstep
    exact ⟨b, Ref.lt_trans hlt' hlt, hb⟩

theorem Meets.exists_of_reflTransGen (h : p.Meets x.1 x.2 r) (hxy : ReflTransGen Child x y) :
    ∃ a, p.Meets y.1 y.2 a := by
  rcases reflTransGen_iff_eq_or_transGen.1 hxy with rfl | hxy
  · exact ⟨r, h⟩
  · obtain ⟨a, -, ha⟩ := h.below hxy
    exact ⟨a, ha⟩

/-- A node stands at the end of its non-terminal, where its span ends. -/
theorem Meets.of_label {label : Nat × Span} (h : p.Meets x.1 x.2 r) (hx : label? x = some label) :
    p.chart.key? r = some ⟨.final label.1, label.2.low⟩ ∧ r.position = label.2.high := by
  obtain ⟨t, low⟩ := x
  cases t with
  | leaf t => cases hx
  | node m ts =>
    obtain rfl := Option.some.inj hx
    rw [Meets] at h
    exact ⟨h.1, h.2.1⟩

/-- Nodes with one label would stand at one entry, and the lower node stands at an older one. -/
theorem Accepts.acyclic_of_meets (h : p.Accepts tokens) {t : DerivationTree} (ht : p.Meets t 0 r) :
    t.Acyclic := by
  intro x y hx hxy label hlabel hlabel'
  obtain ⟨a, ha⟩ := ht.exists_of_reflTransGen (x := (t, 0)) hx
  obtain ⟨b, hlt, hb⟩ := ha.below hxy
  obtain ⟨hkey, hposition⟩ := ha.of_label hlabel
  obtain ⟨hkey', hposition'⟩ := hb.of_label hlabel'
  obtain rfl := h.sound.consistent.ref_unique hkey hkey' (hposition.trans hposition'.symm)
  exact a.lt_irrefl hlt

/-- The walker comes from `w` to another state and takes no return point that `w` holds: it is still
inside what it began at `w`. -/
inductive Inside (p : Parsing) (w : Walker) : Walker → Prop where
  | first {v : Walker} {event : Option Event} (hmove : p.Moves w event v)
    (hdepth : w.returns.length ≤ v.returns.length) : Inside p w v
  | later {v u : Walker} {event : Option Event} (h : Inside p w v) (hmove : p.Moves v event u)
    (hdepth : w.returns.length ≤ u.returns.length) : Inside p w u

/-- The entries that are returned to are older than `r`, if the callee of the first call began at `i`. Each
call is looked up where its callee began, and that is the origin of the call above it. -/
def LeadBefore (p : Parsing) (r : Ref) : Nat → List ReturnPoint → Prop
  | _, [] => True
  | i, point :: returns => (∀ q, p.chart.find? i point.caller point.origin = some q → q < r) ∧
    LeadBefore p r point.origin returns

/-- Where a walk is inside of what it began at `r` with these return points. -/
def Within (p : Parsing) (r : Ref) (returns : List ReturnPoint) (w : Walker) : Prop :=
  ∀ q, w.current = some q → q < r ∧ ∃ k points, p.chart.key? q = some k ∧
    w.returns = points ++ returns ∧ p.LeadBefore r k.origin points

theorem Turn.within {k : Key} {points : List ReturnPoint} (hturn : p.Turn w event w')
    (hw : w.current = some a) (ha : p.chart.key? a = some k) (hle : a < r ∨ a = r)
    (hreturns : w.returns = points ++ returns) (hlead : p.LeadBefore r k.origin points)
    (hdepth : returns.length ≤ w'.returns.length) : p.Within r returns w' := by
  -- By cases of the step, which begins at `r` or at an older entry.
  have hbefore : ∀ {b}, b < a → b < r := by
    rintro b hb
    rcases hle with hlt | rfl
    · exact Ref.lt_trans hb hlt
    · exact hb
  intro q hq
  cases hturn with
  | enter he hfirst hr hsource hlt =>
    obtain rfl := Option.some.inj hw
    obtain rfl := Option.some.inj hq
    obtain rfl := Option.some.inj (ha.symm.trans hr)
    exact ⟨hbefore hlt, _, points, hsource, hreturns, hlead⟩
  | reduce hr hs hlt =>
    obtain rfl := Option.some.inj hw
    obtain rfl := Option.some.inj hq
    obtain rfl := Option.some.inj (ha.symm.trans hr)
    exact ⟨hbefore hlt, _, points, hs, hreturns, hlead⟩
  | shift hr hsource hlt =>
    obtain rfl := Option.some.inj hw
    obtain rfl := Option.some.inj hq
    obtain rfl := Option.some.inj (ha.symm.trans hr)
    exact ⟨hbefore hlt, _, points, hsource, hreturns, hlead⟩
  | @back _ _ caller n o it _ _ _ hr hsource hlt hfind hltq =>
    obtain rfl := Option.some.inj hw
    obtain rfl := Option.some.inj hq
    obtain rfl := Option.some.inj (ha.symm.trans hr)
    refine ⟨hbefore hlt, _, ⟨.item it, o⟩ :: points, hsource, congrArg _ hreturns, ?_, hlead⟩
    intro found hfound
    obtain rfl := Option.some.inj (hfind.symm.trans hfound)
    exact hbefore hltq
  | @resume _ _ n point rest _ _ hr hfind hkey =>
    obtain rfl := Option.some.inj hw
    obtain rfl := Option.some.inj hq
    obtain rfl := Option.some.inj (ha.symm.trans hr)
    cases points with
    | nil =>
      -- The return points below are not taken from inside.
      obtain rfl : point :: rest = returns := hreturns
      exact absurd hdepth (Nat.not_succ_le_self _)
    | cons first points =>
      obtain ⟨rfl, rfl⟩ := List.cons.inj hreturns
      exact ⟨hlead.1 _ hfind, _, points, hkey, rfl, hlead.2⟩
  | finish hr => cases hq

namespace Accepts

theorem within_of_inside (h : p.Accepts tokens) {k : Key} (hw : w.current = some r)
    (hr : p.chart.key? r = some k) (hinside : p.Inside w w') : p.Within r w.returns w' := by
  induction hinside with
  | first hmove hdepth =>
    have hnone : p.LeadBefore r k.origin [] := trivial
    exact (h.turn hr hw hmove).within hw hr (.inr rfl) (List.nil_append _).symm hnone hdepth
  | later _ hmove hdepth ih =>
    obtain ⟨a, ha, -⟩ := id hmove
    obtain ⟨hlt, k, points, hkey, hreturns, hlead⟩ := ih a ha
    exact (h.turn hkey ha hmove).within ha hkey (.inl hlt) hreturns hlead hdepth

end Accepts

end Parsing

/-- The derivation that the walker replays is acyclic, and the walker comes to an end, however many
derivations there are: from an entry it comes to older entries only, until it takes a return point from
before. -/
theorem walk_acyclic {d : Declaration} {g : Grammar} (hg : d.build = .ok g)
    {tokens : List Token} {p : Parsing} (hp : (Graph.ofGrammar g).parse tokens = .ok p) :
    (∃ t ∈ g.derivations tokens, p.walk = .ok (t.events 0 none) ∧ t.Acyclic ∧ p.Meets t 0 p.accept ∧
      ∃ n < p.stepBound, p.Runs n p.walker (t.events 0 none) ⟨none, [], [], none⟩) ∧
        ∀ w w' r q e, w.current = some r → p.chart.entry? r = some e → p.Inside w w' →
          w'.current = some q → q < r := by
  obtain ⟨rfl, h⟩ := Graph.accepts_of_parse hg hp
  obtain ⟨t, ht, hmeets, n, hn, hrun⟩ := h.exists_met_run
  refine ⟨⟨t, ht, hrun.walk_eq rfl hn, h.acyclic_of_meets hmeets, hmeets, n, hn, hrun⟩, ?_⟩
  intro w w' r q e hw he hinside hq
  exact (h.within_of_inside hw (Chart.key?_of_entry he) hinside q hq).1

def loops : Declaration :=
  { name := "loops", terminals := ["x"], rules := [("S", ["S"]), ("S", ["x"])] }

def loopsGrammar : Grammar :=
  { name := "loops"
    start := 0
    terminals := ⟨#["x"], by decide⟩
    nonTerminals := ⟨#["S"], by decide⟩
    productions := #[⟨0, 0, [.nonTerminal 0]⟩, ⟨1, 0, [.terminal 0]⟩] }

theorem build_loops : loops.build = .ok loopsGrammar := by decide +kernel

theorem exists_parse_loops : ∃ p : Parsing,
    (Graph.ofGrammar loopsGrammar).parse [⟨"x", "x"⟩] = .ok p ∧ p.derivationCount = none := by
  have hcount : ((Graph.ofGrammar loopsGrammar).parse [⟨"x", "x"⟩]).toOption.map
      (·.derivationCount) = some none := by decide +kernel
  cases hp : (Graph.ofGrammar loopsGrammar).parse [⟨"x", "x"⟩] with
  | error failure =>
    rw [hp] at hcount
    cases hcount
  | ok p =>
    rw [hp] at hcount
    exact ⟨p, rfl, Option.some.inj hcount⟩

theorem loops_walk_acyclic : ∃ (p : Parsing) (t : DerivationTree), loops.build = .ok loopsGrammar ∧
    (Graph.ofGrammar loopsGrammar).parse [⟨"x", "x"⟩] = .ok p ∧ p.derivationCount = none ∧
      p.walk = .ok (t.events 0 none) ∧ t.Acyclic := by
  obtain ⟨p, hp, hcount⟩ := exists_parse_loops
  obtain ⟨⟨t, -, hwalk, ht, -⟩, -⟩ := walk_acyclic build_loops hp
  exact ⟨p, t, build_loops, hp, hcount, hwalk, ht⟩

end GrammarFlow
