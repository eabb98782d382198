import GrammarFlow.Proofs.Grammar.Building
import GrammarFlow.Proofs.Chart.Calls

namespace GrammarFlow

namespace Grammar

/-- The second production says the same as the first one, which has been declared before it. -/
structure Copies (g : Grammar) (p q : Production) : Prop where
  mem : p ∈ g.productions
  copy_mem : q ∈ g.productions
  lhs_eq : p.lhs = q.lhs
  rhs_eq : p.rhs = q.rhs
  id_lt : p.id < q.id

/-- The empty word can be derived from the non-terminal. -/
def MayBeEmpty (g : Grammar) (n : Nat) : Prop :=
  ∃ t : DerivationTree, t.IsFrom g (.nonTerminal n) ∧ t.yield = []

variable {g : Grammar} {p q : Production} {next : Nat → Option Nat} {i n dot : Nat}

theorem Deducible.mayBeEmpty (hg : g.WellFormed) (h : g.Deducible next i ⟨.final n, i⟩) :
    g.MayBeEmpty n := by
  obtain ⟨_, t, -, ht, hreads⟩ := h.forests_nonempty hg
  have hlength := hreads.length_eq
  exact ⟨t, ht, List.eq_nil_of_length_eq_zero (by omega)⟩

theorem Copies.next?_eq (hg : g.WellFormed) (h : g.Copies p q) :
    (⟨p.id, dot⟩ : Item).next? g = (⟨q.id, dot⟩ : Item).next? g := by
  rw [Item.next?, Item.next?, hg.rhs_id h.mem, hg.rhs_id h.copy_mem, h.rhs_eq]

end Grammar

namespace Chart

variable {G : Graph} {c c' : Chart} {next : Nat → Option Nat} {p q : Production} {i n o : Nat} {k : Key}
  {here a : Ref} {it : Item}

/-- Each item of the second production has the same item of the first one before it, and no end has its
first antecedent from the second one. -/
structure Led (p q : Production) (c : Chart) : Prop where
  behind : ∀ {r dot o}, c.key? r = some ⟨.item ⟨q.id, dot⟩, o⟩ →
    ∃ place < r.index, c.key? ⟨r.position, place⟩ = some ⟨.item ⟨p.id, dot⟩, o⟩
  ended : ∀ {r e n a dot o}, c.entry? r = some e → e.vertex = .final n → e.antecedents[0]? = some a →
    c.key? a ≠ some ⟨.item ⟨q.id, dot⟩, o⟩

theorem Led.of_entry?_eq (h : c.Led p q) (he : ∀ r, c'.entry? r = c.entry? r) : c'.Led p q := by
  have hk : ∀ r, c'.key? r = c.key? r := by
    intro r
    rw [key?, key?, he]
  constructor
  · intro r dot o hr
    rw [hk] at hr
    obtain ⟨place, hlt, hp⟩ := h.behind hr
    exact ⟨place, hlt, (hk _).trans hp⟩
  · intro r e n a dot o hr hv ha
    rw [he] at hr
    rw [hk]
    exact h.ended hr hv ha

theorem key?_push (hc : c.Consistent) (hi : i < c.size) {v : Vertex} {source : Option Ref} {r : Ref}
    (h : (c.push i v o source).key? r = some k) :
    c.key? r = some k ∨ r = ⟨i, (c.set i).size⟩ ∧ k = ⟨v, o⟩ := by
  obtain ⟨e, he, rfl⟩ := exists_entry?_of_key? h
  rcases entry?_push hc hi he with hold | ⟨e', hold, -, -, rfl⟩ | ⟨rfl, rfl⟩
  · exact .inl (key?_of_entry hold)
  · rw [Entry.key_link]
    exact .inl (key?_of_entry hold)
  · exact .inr ⟨rfl, rfl⟩

/-- An item of the second production may be pushed when the first one has its own in the set, and an end
may be pushed from the second one when it is there. -/
theorem Led.push {g : Grammar} (hs : c.Sound g next) (h : c.Led p q) (hi : i < c.size)
    (ha : ∃ k, c.key? a = some k)
    (hitem : ∀ dot o, k = ⟨.item ⟨q.id, dot⟩, o⟩ →
      ∃ r, r.position = i ∧ c.key? r = some ⟨.item ⟨p.id, dot⟩, o⟩)
    (hend : ∀ n dot o, k.vertex = .final n → c.key? a = some ⟨.item ⟨q.id, dot⟩, o⟩ →
      ∃ r, r.position = i ∧ c.key? r = some k) :
    (c.push i k.vertex k.origin (some a)).Led p q := by
  have hext : Extends i c (c.push i k.vertex k.origin (some a)) := extends_push hi (Nat.le_refl i)
  have hcons := hext.consistent hs.consistent
  -- An address that is in the chart keeps its key.
  have hkept : ∀ {b k'}, (∃ k, c.key? b = some k) →
      (c.push i k.vertex k.origin (some a)).key? b = some k' → c.key? b = some k' := by
    intro b k' hb hk'
    obtain ⟨kb, hkb⟩ := hb
    rw [hkb, ← hext.key hkb, hk']
  constructor
  · intro r dot o hr
    rcases key?_push hs.consistent hi hr with hold | ⟨rfl, hnew⟩
    · obtain ⟨place, hlt, hp⟩ := h.behind hold
      exact ⟨place, hlt, hext.key hp⟩
    · obtain ⟨⟨position, index⟩, rfl, hp⟩ := hitem dot o hnew.symm
      obtain ⟨e, he, -⟩ := exists_entry?_of_key? hp
      exact ⟨index, index_lt_of_entry he, hext.key hp⟩
  · intro r e n b dot o hr hv hb hkey
    -- The first antecedents from before are entries of the chart.
    have hfirst : ∀ {e}, c.entry? r = some e → e.vertex = .final n → e.antecedents[0]? = some b →
        False := by
      intro e he hv hb
      obtain ⟨term, rfl, hsup⟩ := (hs.entry he).supported b (Array.mem_of_getElem? hb)
      exact h.ended he hv hb (hkept (hsup.exists_key? _ List.mem_cons_self) hkey)
    rcases entry?_push hs.consistent hi hr with hold | ⟨e', hold, -, -, rfl⟩ | ⟨rfl, rfl⟩
    · exact hfirst hold hv hb
    · have hv' : e'.vertex = .final n := (congrArg Key.vertex (e'.key_link (some a))).symm.trans hv
      rcases (hs.entry hold).founded with ⟨-, hm⟩ | ⟨term, hterm, -⟩
      · rw [hv'] at hm
        cases hm
      · rw [Entry.getElem?_zero_link hterm] at hb
        exact hfirst hold hv' (hterm.trans hb)
    · obtain rfl : a = b := by simpa using hb
      obtain ⟨r, rfl, hkr⟩ := hend n dot o hv (hkept ha hkey)
      obtain ⟨e, he, -⟩ := exists_entry?_of_key? hkr
      have hunique := hcons.ref_unique (hext.key hkr) (key?_of_entry hr) rfl
      have hlt := index_lt_of_entry he
      rw [hunique] at hlt
      exact Nat.lt_irrefl _ hlt

theorem Led.foldl {g : Grammar} {f : Chart → Nat → Chart} {l : List Nat} (h : c.Led p q)
    (key : Nat → Key) (hs : c.Sound g next) (hk : c.key? here = some k) (hsorted : l.Pairwise (· < ·))
    (hstep : ∀ x ∈ l, ∀ c', Progress g next here.position c c' →
      f c' x = c'.push here.position (key x).vertex (key x).origin (some here) ∧
        Progress g next here.position c' (f c' x))
    (hfinal : ∀ x ∈ l, ∀ n, (key x).vertex ≠ .final n)
    (hitem : ∀ x ∈ l, ∀ dot o, key x = ⟨.item ⟨q.id, dot⟩, o⟩ →
      (∃ r, r.position = here.position ∧ c.key? r = some ⟨.item ⟨p.id, dot⟩, o⟩) ∨
        ∃ y ∈ l, y < x ∧ key y = ⟨.item ⟨p.id, dot⟩, o⟩) : (l.foldl f c).Led p q := by
  -- By induction on what is pushed in order: when the turn of the second production comes, the
  -- first one has had its own, or is in the set anyway.
  induction l generalizing c with
  | nil => exact h
  | cons x l ih =>
    obtain ⟨hleast, hsorted⟩ := List.pairwise_cons.1 hsorted
    obtain ⟨hpush, hnext⟩ := hstep x List.mem_cons_self c ⟨.refl _ c, hs⟩
    have hlt := lt_size_of_key? hk
    have hled : (f c x).Led p q := by
      rw [hpush]
      refine h.push hs hlt ⟨k, hk⟩ (fun dot o hkey => ?_)
        fun n _ _ hv => absurd hv (hfinal x List.mem_cons_self n)
      rcases hitem x List.mem_cons_self dot o hkey with hold | ⟨y, hy, hyx, -⟩
      · exact hold
      · rcases List.mem_cons.1 hy with rfl | hy
        · exact absurd hyx (Nat.lt_irrefl y)
        · exact absurd (hleast y hy) (Nat.lt_asymm hyx)
    refine ih hled hnext.sound (hnext.grows.key hk) hsorted
      (fun y hy c' hc' => hstep y (List.mem_cons_of_mem x hy) c' (hnext.trans hc'))
      (fun y hy => hfinal y (List.mem_cons_of_mem x hy)) fun y hy dot o hkey => ?_
    rcases hitem y (List.mem_cons_of_mem x hy) dot o hkey with ⟨r, hr, hkr⟩ | ⟨z, hz, hzy, hkz⟩
    · exact .inl ⟨r, hr, hnext.grows.key hkr⟩
    · rcases List.mem_cons.1 hz with rfl | hz
      · rw [hpush, ← hkz]
        exact .inl (linked_push hs.consistent hlt).exists_key?
      · exact .inr ⟨z, hz, hzy, hkz⟩

section Process

variable (hg : G.grammar.WellFormed) (hs : c.Sound G.grammar next) (hcopies : G.grammar.Copies p q)
  (hled : c.Led p q)
include hg hs hcopies hled

theorem led_start {coming : Option Nat} (hk : c.key? here = some ⟨.start n, o⟩) :
    (c.process G coming here).Led p q := by
  rw [process_of_start hg hk]
  refine hled.foldl (fun id => ⟨.item ⟨id, 0⟩, o⟩) hs hk (hg.pairwise_alternativesOf n)
    (fun id hid c' hc' => ?_) (fun id _ n hv => nomatch hv) fun id hid dot o' hkey => ?_
  · obtain ⟨r, hr, rfl, rfl⟩ := Grammar.mem_alternativesOf.1 hid
    have hlt : here.position < c'.size := by
      rw [hc'.grows.size_eq]
      exact lt_size_of_key? hk
    exact ⟨rfl, (progress_push hg hc'.sound (.expand (hc'.grows.key hk) hr) hlt (Nat.le_refl _)).1⟩
  · injection hkey with hv ho
    injection hv with hit
    injection hit with hid' hdot
    subst hid' hdot ho
    obtain ⟨r, hr, hlhs, hrid⟩ := Grammar.mem_alternativesOf.1 hid
    obtain rfl := hg.id_injective hr hcopies.copy_mem hrid
    exact .inr ⟨p.id, Grammar.mem_alternativesOf.2 ⟨p, hcopies.mem, hcopies.lhs_eq.trans hlhs, rfl⟩,
      hcopies.id_lt, rfl⟩

theorem led_exit {coming : Option Nat} {r : Production} (hsat : c.Saturated G.grammar next here)
    (hk : c.key? here = some ⟨.item it, o⟩) (hr : G.grammar.production? it.production = some r)
    (hend : it.next? G.grammar = none) : (c.process G coming here).Led p q := by
  rw [process_of_exit hk hr hend]
  refine hled.push (k := ⟨.final r.lhs, o⟩) hs (lt_size_of_key? hk) ⟨_, hk⟩ nofun
    fun n dot o' _ hkey => ?_
  -- The first copy has been at its end before.
  obtain ⟨hit, rfl⟩ := Key.mk.inj (Option.some.inj (hk.symm.trans hkey))
  obtain rfl := Vertex.item.inj hit
  obtain ⟨place, hplace, hfirst⟩ := hled.behind hk
  have hlt : (⟨here.position, place⟩ : Ref) < here := .inr ⟨rfl, hplace⟩
  obtain rfl := Option.some.inj ((hg.production?_id hcopies.copy_mem).symm.trans hr)
  have hlink := hsat.linked (.exit hfirst (hg.production?_id hcopies.mem)
    ((hcopies.next?_eq hg).trans hend)) (by simpa [Term.refs] using hlt)
  rw [hcopies.lhs_eq] at hlink
  exact hlink.exists_key?

theorem led_shift {t : Nat} (hsat : c.Saturated G.grammar next here)
    (hroom : next here.position ≠ none → here.position + 1 < c.size)
    (hk : c.key? here = some ⟨.item it, o⟩) (ht : it.next? G.grammar = some (.terminal t)) :
    (c.process G (next here.position) here).Led p q := by
  rw [process_of_shift hk ht]
  split
  · next hnext =>
    have hlt : here.position + 1 < c.size := hroom (by simp [hnext])
    refine hled.push (k := ⟨.item it.advance, o⟩) hs hlt ⟨_, hk⟩ (fun dot o' hkey => ?_) nofun
    obtain ⟨hit, rfl⟩ := Key.mk.inj hkey
    obtain ⟨production, dot⟩ := it
    obtain ⟨rfl, rfl⟩ := Item.mk.inj (Vertex.item.inj hit)
    obtain ⟨place, hplace, hfirst⟩ := hled.behind hk
    have hlt : (⟨here.position, place⟩ : Ref) < here := .inr ⟨rfl, hplace⟩
    have hlink := hsat.linked (.shift hfirst ((hcopies.next?_eq hg).trans ht) hnext)
      (by simpa [Term.refs] using hlt)
    exact hlink.exists_key?
  · exact hled

/-- A caller is only carried over at once if its callee may be empty. -/
theorem led_call {coming : Option Nat} (hvisible : ∀ n, .nonTerminal n ∈ q.rhs → ¬G.grammar.MayBeEmpty n)
    (hk : c.key? here = some ⟨.item it, o⟩) (hn : it.next? G.grammar = some (.nonTerminal n)) :
    (c.process G coming here).Led p q := by
  have hlt := lt_size_of_key? hk
  obtain ⟨hc, -⟩ := progress_begin hg hs hk hn
  have hbegun : ((c.addCaller here n).push here.position (.start n) here.position (some here)).Led p q := by
    have hcaller : (c.addCaller here n).Led p q := hled.of_entry?_eq fun r => entry?_addCaller hlt r
    have hgrows : Extends here.position c (c.addCaller here n) := extends_addCaller hlt
    refine hcaller.push (k := ⟨.start n, here.position⟩) (hs.addCaller hlt) ?_ ⟨_, hgrows.key hk⟩
      (fun dot o' hcopy => by cases hcopy) (fun m dot o' hm => by cases hm)
    rwa [size_addCaller]
  rw [process_of_call hk hn, call]
  split
  · next ended hended =>
    obtain ⟨hpos, hkey⟩ := (hc.sound.consistent.find?_iff (k := ⟨.final n, here.position⟩)).1 hended
    rw [resume_eq (hc.grows.key hk) hn]
    refine hbegun.push (k := ⟨.item it.advance, o⟩) hc.sound (lt_size_of_key? hkey) ⟨_, hkey⟩
      (fun dot o' hcopy => ?_) (fun m dot o' hm => by cases hm)
    obtain ⟨production, dot⟩ := it
    obtain ⟨rfl, rfl⟩ := Item.mk.inj (Vertex.item.inj (Key.mk.inj hcopy).1)
    have hd := hc.sound.deducible hkey
    rw [hpos] at hd
    rw [Item.next?, hg.rhs_id hcopies.copy_mem] at hn
    exact absurd (hd.mayBeEmpty hg) (hvisible n (List.mem_of_getElem? hn))
  · exact hbegun

/-- The callers go on in the order in which they have been noted. -/
theorem led_final {coming : Option Nat} (hsat : c.Saturated G.grammar next here)
    (horder : c.CallersInOrder) (hk : c.key? here = some ⟨.final n, o⟩) :
    (c.process G coming here).Led p q := by
  have hwait : ∀ place ∈ ((c.set o).callers n).toList, ∃ it p,
      c.key? ⟨o, place⟩ = some ⟨.item it, p⟩ ∧ it.next? G.grammar = some (.nonTerminal n) :=
    fun place hplace => (hsat.mem_callers_iff.1 (Array.mem_toList_iff.1 hplace)).2
  have hinhabited : Nonempty Item := ⟨⟨0, 0⟩⟩
  choose! it' p' hcaller hn using hwait
  rw [process_of_final hk, complete, ← Array.foldl_toList]
  refine hled.foldl (fun place => ⟨.item (it' place).advance, p' place⟩) hs hk (horder o n)
    (fun place hplace c' hc' => ?_) (fun place _ n hv => by cases hv) fun place hplace dot o' hkey => ?_
  · have hq := hc'.grows.key (hcaller place hplace)
    exact ⟨resume_eq hq (hn place hplace),
      (progress_resume hg hc'.sound (hc'.grows.key hk) hq (hn place hplace)).1⟩
  · -- The first copy stands before the second one in the set of the callers, and waits as well.
    obtain ⟨hit, rfl⟩ := Key.mk.inj hkey
    have hcopy := hcaller place hplace
    have hnext := hn place hplace
    obtain ⟨hlt, -⟩ := hsat.mem_callers_iff.1 (Array.mem_toList_iff.1 hplace)
    generalize it' place = it at hit hcopy hnext
    obtain ⟨production, dot⟩ := it
    obtain ⟨rfl, rfl⟩ := Item.mk.inj (Vertex.item.inj hit)
    obtain ⟨first, hbefore, hfirst⟩ := hled.behind hcopy
    have hwaits : c.Waits G.grammar ⟨o, first⟩ n := ⟨_, _, hfirst, (hcopies.next?_eq hg).trans hnext⟩
    have hfirst_lt : (⟨o, first⟩ : Ref) < here := by
      rw [Ref.lt_iff] at *
      dsimp only at *
      omega
    have hmem : first ∈ ((c.set o).callers n).toList :=
      Array.mem_toList_iff.2 (hsat.mem_callers_iff.2 ⟨hfirst_lt, hwaits⟩)
    obtain ⟨hsame, horigin⟩ := Key.mk.inj (Option.some.inj ((hcaller first hmem).symm.trans hfirst))
    refine .inr ⟨first, hmem, hbefore, ?_⟩
    rw [Vertex.item.inj hsame, horigin]
    rfl

theorem led_process (hvisible : ∀ n, .nonTerminal n ∈ q.rhs → ¬G.grammar.MayBeEmpty n)
    (hsat : c.Saturated G.grammar next here) (horder : c.CallersInOrder)
    (hroom : next here.position ≠ none → here.position + 1 < c.size) (hk : c.key? here = some k) :
    (c.process G (next here.position) here).Led p q := by
  obtain ⟨v, o⟩ := k
  cases v with
  | start n => exact led_start hg hs hcopies hled hk
  | final n => exact led_final hg hs hcopies hled hsat horder hk
  | item it =>
    cases hn : it.next? G.grammar with
    | none =>
      obtain ⟨r, hr, -⟩ := (hs.deducible hk).exists_production hg
      exact led_exit hg hs hcopies hled hsat hk hr hn
    | some s =>
      cases s with
      | terminal t => exact led_shift hg hs hcopies hled hsat hroom hk hn
      | nonTerminal n => exact led_call hg hs hcopies hled hvisible hk hn

end Process

end Chart

namespace Graph

variable {G : Graph} {tokens : List Token} {c : Chart} {here : Ref} {p q : Production}

theorem led_seeded (G : Graph) : (Chart.seeded G).Led p q where
  behind hr := by
    obtain ⟨e, he, hk⟩ := Chart.exists_entry?_of_key? hr
    rw [entry?_seeded he] at hk
    cases hk
  ended hr hv _ _ := by
    rw [entry?_seeded hr] at hv
    cases hv

/-- The callers come in order, so the first copy stays in front. -/
theorem Makes.led (hg : G.grammar.WellFormed) (hcopies : G.grammar.Copies p q)
    (hvisible : ∀ n, .nonTerminal n ∈ q.rhs → ¬G.grammar.MayBeEmpty n) (h : G.Makes tokens here c) :
    c.Led p q := by
  refine h.preserves (led_seeded G) (fun hled => hled.of_entry?_eq Chart.entry?_addSet)
    fun hmade hk hled => ?_
  have hm := hmade.maintained hg
  exact Chart.led_process hg hm.sound hcopies hled hvisible hm.saturated (hmade.callersInOrder hg)
    hm.room hk

end Graph

end GrammarFlow
