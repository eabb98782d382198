import GrammarFlow.Proofs.Recognition

namespace GrammarFlow.Chart

variable {G : Graph} {next : Nat → Option Nat} {coming : Option Nat} {c c' : Chart}
  {i j o n place fuel : Nat} {v : Vertex} {source : Option Ref} {here q a : Ref} {t : Token}

theorem set_push_of_ne (h : i ≠ j) : (c.push i v o source).set j = c.set j := by
  simp only [set, set?, push, Array.getElem?_modify, if_neg h]

/-- Both charts have sets up to position `i`, and these are the same. -/
structure AgreeTo (i : Nat) (c c' : Chart) : Prop where
  lt_size : i < c.size
  lt_size' : i < c'.size
  set_eq : ∀ j ≤ i, c.set j = c'.set j

namespace AgreeTo

theorem addSet (h : i < c.size) : AgreeTo i c.addSet c where
  lt_size := by
    rw [size_addSet]
    exact Nat.lt_succ_of_lt h
  lt_size' := h
  set_eq j _ := set_addSet j

theorem entry? (h : AgreeTo i c c') (hq : q.position ≤ i) :
    Chart.entry? c q = Chart.entry? c' q := by
  rw [entry?_eq, entry?_eq, h.set_eq _ hq]

theorem find? (h : AgreeTo i c c') (hj : j ≤ i) : c.find? j v o = c'.find? j v o := by
  rw [find?_eq, find?_eq, h.set_eq j hj]

theorem push (h : AgreeTo i c c') (hj : j ≤ i) :
    AgreeTo i (c.push j v o source) (c'.push j v o source) where
  lt_size := h.lt_size.trans_eq size_push.symm
  lt_size' := h.lt_size'.trans_eq size_push.symm
  set_eq m hm := by
    rw [set_push (Nat.lt_of_le_of_lt hj h.lt_size), set_push (Nat.lt_of_le_of_lt hj h.lt_size'),
      h.set_eq m hm]

theorem addCaller (h : AgreeTo i c c') (hq : q.position ≤ i) :
    AgreeTo i (c.addCaller q n) (c'.addCaller q n) where
  lt_size := h.lt_size.trans_eq size_addCaller.symm
  lt_size' := h.lt_size'.trans_eq size_addCaller.symm
  set_eq m hm := by
    rw [set_addCaller (Nat.lt_of_le_of_lt hq h.lt_size),
      set_addCaller (Nat.lt_of_le_of_lt hq h.lt_size'), h.set_eq m hm]

theorem push_beyond (h : AgreeTo i c c') (hj : i < j) : AgreeTo i (c.push j v o source) c' where
  lt_size := h.lt_size.trans_eq size_push.symm
  lt_size' := h.lt_size'
  set_eq m hm := by
    rw [set_push_of_ne (Nat.ne_of_gt (Nat.lt_of_le_of_lt hm hj)), h.set_eq m hm]

theorem symm (h : AgreeTo i c c') : AgreeTo i c' c :=
  ⟨h.lt_size', h.lt_size, fun j hj => (h.set_eq j hj).symm⟩

theorem foldl {α : Type} {f f' : Chart → α → Chart} {l : List α} (h : AgreeTo i c c')
    (hf : ∀ x {c c'}, AgreeTo i c c' → AgreeTo i (f c x) (f' c' x)) :
    AgreeTo i (l.foldl f c) (l.foldl f' c') := by
  induction l generalizing c c' with
  | nil => exact h
  | cons x l ih => exact ih (hf x h)

theorem resume (h : AgreeTo i c c') (hq : q.position ≤ i) (ha : a.position ≤ i) :
    AgreeTo i (c.resume G q a) (c'.resume G q a) := by
  rw [Chart.resume, Chart.resume, h.entry? hq]
  split
  · exact h
  · split
    · exact h
    · exact h.push ha

theorem call (h : AgreeTo i c c') (hhere : here.position ≤ i) :
    AgreeTo i (c.call G here n) (c'.call G here n) := by
  have hstart : AgreeTo i
      ((c.addCaller here n).push here.position (.start n) here.position (some here))
      ((c'.addCaller here n).push here.position (.start n) here.position (some here)) :=
    (h.addCaller hhere).push hhere
  rw [Chart.call, Chart.call]
  rw [hstart.find? hhere]
  split
  · next ended hended =>
    rw [find?_eq, Option.map_eq_some_iff] at hended
    obtain ⟨place, -, rfl⟩ := hended
    exact hstart.resume hhere hhere
  · exact hstart

theorem complete (h : AgreeTo i c c') (hhere : here.position ≤ i) (ho : o ≤ i) :
    AgreeTo i (c.complete G here n o) (c'.complete G here n o) := by
  rw [Chart.complete, Chart.complete, h.set_eq o ho, ← Array.foldl_toList, ← Array.foldl_toList]
  exact h.foldl fun place _ _ h => h.resume (q := ⟨o, place⟩) ho hhere

theorem follow {coming' : Option Nat} (h : AgreeTo here.position c c') (edge : Edge) :
    AgreeTo here.position (Chart.follow G coming here o c edge)
      (Chart.follow G coming' here o c' edge) := by
  obtain ⟨kind, target⟩ := edge
  have hbeyond : here.position < here.position + 1 := Nat.lt_succ_self _
  cases kind with
  | start => exact h.push (Nat.le_refl _)
  | final => exact h.push (Nat.le_refl _)
  | call n => exact h.call (Nat.le_refl _)
  | back n => exact h
  | shift t =>
    -- One of the charts may take the shift and the other one not.
    have htaken : ∀ {coming : Option Nat} {c c' : Chart}, AgreeTo here.position c c' →
        AgreeTo here.position (Chart.follow G coming here o c ⟨.shift t, target⟩) c' := by
      intro coming c c' h
      simp only [Chart.follow]
      split
      · exact h.push_beyond hbeyond
      · exact h
    exact htaken (htaken h.symm).symm

theorem process {coming' : Option Nat} (h : AgreeTo here.position c c')
    (ho : ∀ k, c.key? here = some k → k.origin ≤ here.position) :
    AgreeTo here.position (c.process G coming here) (c'.process G coming' here) := by
  rw [Chart.process, Chart.process, ← h.entry? (Nat.le_refl _)]
  split
  · exact h
  · next n origin antecedents he => exact h.complete (Nat.le_refl _) (ho _ (key?_of_entry he))
  · exact h.foldl fun edge _ _ h => h.follow edge

end AgreeTo

theorem agreeTo_closeFrom (hg : G.grammar.WellFormed) (hs : c.Sound G.grammar next)
    (hsat : c.Saturated G.grammar next ⟨i, place⟩) (hroom : next i ≠ none → i + 1 < c.size)
    (h : AgreeTo i c c') :
    AgreeTo i (closeFrom G (next i) i fuel place c) (closeFrom G coming i fuel place c') := by
  -- By induction on the fuel: the entries of the position are the same in both charts, so that both
  -- work lists go on or end together.
  induction fuel generalizing place c c' with
  | zero => exact h
  | succ fuel ih =>
    rw [closeFrom, closeFrom, ← h.set_eq i (Nat.le_refl i)]
    split
    · next hlt =>
      obtain ⟨e, he⟩ := exists_entry?_of_lt (c := c) (r := ⟨i, place⟩) hlt
      have hk := key?_of_entry he
      have hprog := progress_process hg hs hk hsat hroom
      have hhere : AgreeTo (⟨i, place⟩ : Ref).position c c' := h
      have hstep : AgreeTo i (c.process G (next i) ⟨i, place⟩) (c'.process G coming ⟨i, place⟩) :=
        hhere.process fun k hk => (hs.deducible hk).origin_le hg
      refine ih hprog.sound (saturated_process hg hs hk hsat hroom) ?_ hstep
      rw [hprog.grows.size_eq]
      exact hroom
    · exact h

namespace Reached

/-- A position that is closed before a token is no other than one that is closed at the end. -/
theorem agreeTo_advance (hg : G.grammar.WellFormed) (h : c.Reached G.grammar next i)
    (hnext : next i = G.grammar.terminalId? t.terminal) :
    AgreeTo i (c.advance G i t) (c.close G none i) := by
  rw [Chart.advance, ← hnext]
  exact agreeTo_closeFrom hg h.sound.addSet h.saturated.addSet (fun _ => h.room_addSet)
    (.addSet h.room)

/-- A token leaves the sets before its position as they are. -/
theorem set_advance (hg : G.grammar.WellFormed) (h : c.Reached G.grammar next i)
    (hnext : next i = G.grammar.terminalId? t.terminal) (hj : j < i) :
    (c.advance G i t).set j = c.set j := by
  obtain ⟨hprog, -⟩ := close_spec hg h.sound.addSet h.saturated.addSet fun _ => h.room_addSet
  rw [Chart.advance, ← hnext, hprog.grows.set_eq j hj, set_addSet]

theorem set_close (hg : G.grammar.WellFormed) (h : c.Reached G.grammar next i)
    (hnext : next i = none) (hj : j < i) : (c.close G none i).set j = c.set j := by
  obtain ⟨hprog, -⟩ := close_spec hg h.sound h.saturated fun hne => absurd hnext hne
  rw [← hnext, hprog.grows.set_eq j hj]

end Reached

end GrammarFlow.Chart
