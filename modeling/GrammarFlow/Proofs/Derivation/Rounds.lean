import GrammarFlow.Proofs.Derivation.Count

namespace GrammarFlow

/-- A run of the loop: the number of its rounds, the entries that it opens, in this order, and the marks
that it leaves or the entry at which it stops. -/
structure Tallying where
  rounds : Nat
  opened : List Ref
  outcome : Except Ref Tally

namespace Tally

variable {t : Tally} {r : Ref}

theorem isCounted_of_active (h : t.mark r = .active) : t.isCounted r = false := by
  rw [isCounted, h]

theorem isCounted_of_unseen (h : t.mark r = .unseen) : t.isCounted r = false := by
  rw [isCounted, h]

end Tally

namespace Parsing

open Relation

variable {p : Parsing} {r q root : Ref} {t t' : Tally} {m n : Nat} {stack : List (Ref × Bool)}
  {run run' : Tallying} {tokens : List Token} {f : Ref → Nat} {e : Entry}

/-- The loop from a stack and marks on, which ends with an empty stack or at an entry that is met again
while it is open. -/
inductive Tallies (p : Parsing) : List (Ref × Bool) → Tally → Tallying → Prop where
  | done {t : Tally} : Tallies p [] t ⟨0, [], .ok t⟩
  | skip {r : Ref} {expanded : Bool} {stack : List (Ref × Bool)} {t : Tally} {run : Tallying}
    (hcounted : t.isCounted r = true) (h : Tallies p stack t run) :
    Tallies p ((r, expanded) :: stack) t ⟨run.rounds + 1, run.opened, run.outcome⟩
  | count {r : Ref} {stack : List (Ref × Bool)} {t : Tally} {run : Tallying}
    (hcounted : t.isCounted r = false)
    (h : Tallies p stack (t.setMark r (.counted (p.countAt t r))) run) :
    Tallies p ((r, true) :: stack) t ⟨run.rounds + 1, run.opened, run.outcome⟩
  | stop {r : Ref} {stack : List (Ref × Bool)} {t : Tally} (hactive : t.mark r = .active) :
    Tallies p ((r, false) :: stack) t ⟨1, [], .error r⟩
  | expand {r : Ref} {stack : List (Ref × Bool)} {t : Tally} {run : Tallying}
    (hunseen : t.mark r = .unseen)
    (h : Tallies p ((p.openSources t r).map (·, false) ++ (r, true) :: stack)
      (t.setMark r .active) run) :
    Tallies p ((r, false) :: stack) t ⟨run.rounds + 1, r :: run.opened, run.outcome⟩

namespace Tallies

theorem unique (h : p.Tallies stack t run) (h' : p.Tallies stack t run') : run = run' := by
  induction h generalizing run' with
  | done =>
    cases h'
    rfl
  | skip hcounted h ih =>
    cases h' with
    | skip _ h' => rw [ih h']
    | count hopen => cases hopen.symm.trans hcounted
    | stop hactive => cases (Tally.isCounted_of_active hactive).symm.trans hcounted
    | expand hunseen => cases (Tally.isCounted_of_unseen hunseen).symm.trans hcounted
  | count hopen h ih =>
    cases h' with
    | skip hcounted => cases hopen.symm.trans hcounted
    | count _ h' => rw [ih h']
  | stop hactive =>
    cases h' with
    | skip hcounted => cases (Tally.isCounted_of_active hactive).symm.trans hcounted
    | stop => rfl
    | expand hunseen => cases hactive.symm.trans hunseen
  | expand hunseen h ih =>
    cases h' with
    | skip hcounted => cases (Tally.isCounted_of_unseen hunseen).symm.trans hcounted
    | stop hactive => cases hactive.symm.trans hunseen
    | expand _ h' => rw [ih h']

/-- The bound on the rounds does not show as long as it allows for all of them. -/
theorem countFrom_eq (h : p.Tallies stack t run) (extra : Nat) :
    p.countFrom (run.rounds + extra) stack t = run.outcome.toOption := by
  induction h with
  | done =>
    rw [Nat.zero_add]
    cases extra <;> rfl
  | skip hcounted h ih =>
    rw [Nat.add_right_comm, countFrom, if_pos hcounted]
    exact ih
  | count hopen h ih =>
    rw [Nat.add_right_comm, countFrom, if_neg (Bool.eq_false_iff.1 hopen), if_pos rfl]
    exact ih
  | stop hactive =>
    have hopen := Tally.isCounted_of_active hactive
    rw [Nat.add_comm 1 extra, countFrom, if_neg (Bool.eq_false_iff.1 hopen),
      if_neg Bool.false_ne_true, if_pos hactive]
    rfl
  | expand hunseen h ih =>
    have hopen := Tally.isCounted_of_unseen hunseen
    have hactive : ¬_ = Mark.active := ne_of_eq_of_ne hunseen nofun
    rw [Nat.add_right_comm, countFrom, if_neg (Bool.eq_false_iff.1 hopen), if_neg Bool.false_ne_true,
      if_neg hactive]
    exact ih

end Tallies

/-- The loop comes to an end, as each round shortens the stack or takes the cost of an entry, which covers
what it puts on the stack, off what remains. -/
theorem Counting.exists_tallies (hp : p.Accepts tokens) (h : p.Counting root stack t)
    (hrest : stack.length + p.remaining t ≤ n) : ∃ run, p.Tallies stack t run ∧ run.rounds ≤ n := by
  induction n generalizing stack t with
  | zero =>
    obtain rfl : stack = [] := List.length_eq_zero_iff.1 (by omega)
    exact ⟨_, .done, Nat.le_refl _⟩
  | succ n ih =>
    obtain _ | ⟨⟨r, expanded⟩, stack⟩ := stack
    · exact ⟨_, .done, Nat.zero_le _⟩
    · obtain ⟨k, hk⟩ : ∃ k, p.chart.key? r = some k := h.known _ List.mem_cons_self
      rw [List.length_cons] at hrest
      cases hcounted : t.isCounted r with
      | true =>
        obtain ⟨run, hrun, hle⟩ := ih (h.skip hcounted) (by omega)
        exact ⟨_, .skip hcounted hrun, Nat.succ_le_succ hle⟩
      | false =>
        cases expanded with
        | true =>
          have hmarked := remaining_setMark (m := .counted (p.countAt t r)) hk (h.holds hk) nofun
          obtain ⟨run, hrun, hle⟩ := ih (h.finish h.counts) (by omega)
          exact ⟨_, .count hcounted hrun, Nat.succ_le_succ hle⟩
        | false =>
          by_cases hactive : t.mark r = .active
          · exact ⟨_, .stop hactive, Nat.succ_le_succ (Nat.zero_le _)⟩
          · have hunseen := Tally.mark_eq_unseen (Bool.eq_false_iff.1 hcounted) hactive
            obtain ⟨e, he, -⟩ := Chart.exists_entry?_of_key? hk
            have hmarked := remaining_setMark (m := .active) hk (h.holds hk) nofun
            have hcost := length_openSources (t := t) he
            rw [if_pos hunseen] at hmarked
            obtain ⟨run, hrun, hle⟩ := ih (Counting.expand hp h hunseen) (by
              rw [List.length_append, List.length_map, List.length_cons]
              omega)
            exact ⟨_, .expand hunseen hrun, Nat.succ_le_succ hle⟩

namespace Tallies

theorem cycle (hp : p.Accepts tokens) (h : p.Tallies stack t run) (hc : p.Counting root stack t)
    (hstop : run.outcome = .error q) : ReflTransGen p.Feeds root q ∧ TransGen p.Feeds q q := by
  induction h with
  | done => cases hstop
  | skip hcounted h ih => exact ih (hc.skip hcounted) hstop
  | count hopen h ih => exact ih (hc.finish hc.counts) hstop
  | stop hactive =>
    obtain rfl := Except.error.inj hstop
    exact hc.cycle hactive
  | expand hunseen h ih => exact ih (.expand hp hc hunseen) hstop

/-- What is kept by a mark on the entry on top of the stack is kept by the loop. -/
theorem preserves {P : Tally → Prop} (hp : p.Accepts tokens) (h : p.Tallies stack t run)
    (hc : p.Counting root stack t) (hfirst : P t)
    (hcount : ∀ {r stack t}, p.Counting root ((r, true) :: stack) t → P t →
      P (t.setMark r (.counted (p.countAt t r))))
    (hexpand : ∀ {r stack t}, p.Counting root ((r, false) :: stack) t → t.mark r = .unseen → P t →
      P (t.setMark r .active))
    (hend : run.outcome = .ok t') : P t' ∧ p.Counting root [] t' := by
  induction h with
  | done =>
    obtain rfl := Except.ok.inj hend
    exact ⟨hfirst, hc⟩
  | skip hcounted h ih => exact ih (hc.skip hcounted) hfirst hend
  | count hopen h ih => exact ih (hc.finish hc.counts) (hcount hc hfirst) hend
  | stop hactive => cases hend
  | expand hunseen h ih => exact ih (.expand hp hc hunseen) (hexpand hc hunseen hfirst) hend

theorem counting (hp : p.Accepts tokens) (h : p.Tallies stack t run) (hc : p.Counting root stack t)
    (hend : run.outcome = .ok t') : p.Counting root [] t' :=
  (h.preserves (P := fun _ => True) hp hc trivial (fun _ _ => trivial) (fun _ _ _ => trivial) hend).2

/-- An entry is opened when it is met first, and once only. -/
theorem opened_unseen (hp : p.Accepts tokens) (h : p.Tallies stack t run)
    (hc : p.Counting root stack t) : run.opened.Nodup ∧
      ∀ q ∈ run.opened, t.mark q = .unseen ∧ ReflTransGen p.Feeds root q := by
  induction h with
  | done => exact ⟨.nil, nofun⟩
  | skip hcounted h ih => exact ih (hc.skip hcounted)
  | @count r stack t run hopen h ih =>
    obtain ⟨hnodup, hmem⟩ := ih (hc.finish hc.counts)
    refine ⟨hnodup, fun q hq => ?_⟩
    obtain ⟨hunseen, hreach⟩ := hmem q hq
    rw [hc.mark_setMark] at hunseen
    split at hunseen
    · cases hunseen
    · exact ⟨hunseen, hreach⟩
  | stop hactive => exact ⟨.nil, nofun⟩
  | @expand r stack t run hunseen h ih =>
    obtain ⟨hnodup, hmem⟩ := ih (.expand hp hc hunseen)
    have hother : ∀ q ∈ run.opened, q ≠ r ∧ t.mark q = .unseen ∧ ReflTransGen p.Feeds root q := by
      intro q hq
      obtain ⟨hq, hreach⟩ := hmem q hq
      rw [hc.mark_setMark] at hq
      split at hq
      · cases hq
      · next hqr => exact ⟨hqr, hq, hreach⟩
    refine ⟨List.nodup_cons.2 ⟨fun hr => (hother r hr).1 rfl, hnodup⟩, fun q hq => ?_⟩
    rcases List.mem_cons.1 hq with rfl | hq
    · exact ⟨hunseen, hc.reached _ List.mem_cons_self⟩
    · exact (hother q hq).2

theorem mem_opened_of_counted (hp : p.Accepts tokens) (h : p.Tallies stack t run)
    (hc : p.Counting root stack t) (hend : run.outcome = .ok t') (hq : t'.isCounted q = true) :
    t.isCounted q = true ∨ (q, true) ∈ stack ∨ q ∈ run.opened := by
  induction h with
  | done =>
    obtain rfl := Except.ok.inj hend
    exact .inl hq
  | skip hcounted h ih =>
    exact (ih (hc.skip hcounted) hend).imp_right (.imp_left (List.mem_cons_of_mem _))
  | @count r stack t run hopen h ih =>
    rcases ih (hc.finish hc.counts) hend with hcounted | hopened
    · by_cases hqr : q = r
      · exact .inr (.inl (hqr ▸ List.mem_cons_self))
      · rw [Tally.isCounted, hc.mark_setMark, if_neg hqr] at hcounted
        exact .inl hcounted
    · exact .inr (hopened.imp_left (List.mem_cons_of_mem _))
  | stop hactive => cases hend
  | @expand r stack t run hunseen h ih =>
    rcases ih (.expand hp hc hunseen) hend with hcounted | hstack | hopened
    · by_cases hqr : q = r
      · exact .inr (.inr (hqr ▸ List.mem_cons_self))
      · rw [Tally.isCounted, hc.mark_setMark, if_neg hqr] at hcounted
        exact .inl hcounted
    · rcases List.mem_append.1 hstack with hsource | hstack
      · obtain ⟨_, -, hpair⟩ := List.mem_map.1 hsource
        cases hpair
      · rcases List.mem_cons.1 hstack with hpair | hstack
        · cases hpair
          exact .inr (.inr List.mem_cons_self)
        · exact .inr (.inl (List.mem_cons_of_mem _ hstack))
    · exact .inr (.inr (List.mem_cons_of_mem _ hopened))

end Tallies

theorem Accepts.exists_entry?_of_reached (hp : p.Accepts tokens)
    (hreach : ReflTransGen p.Feeds p.accept r) : ∃ e, p.chart.entry? r = some e := by
  obtain ⟨k, hk⟩ : ∃ k, p.chart.key? r = some k := by
    rcases hreach.cases_tail with rfl | ⟨q, -, hfeeds⟩
    · exact ⟨_, hp.key?_accept⟩
    · exact hp.exists_key?_of_feeds hfeeds
  obtain ⟨e, he, -⟩ := Chart.exists_entry?_of_key? hk
  exact ⟨e, he⟩

end Parsing

def Vertex.Opens : Vertex → Prop
  | .start _ => True
  | .final _ => False
  | .item i => i.dot = 0

instance : DecidablePred Vertex.Opens
  | .start _ => inferInstanceAs (Decidable True)
  | .final _ => inferInstanceAs (Decidable False)
  | .item i => inferInstanceAs (Decidable (i.dot = 0))

namespace Parsing

open Relation

variable {p : Parsing} {r q : Ref} {m n : Nat} {tokens : List Token} {f f' : Ref → Nat} {e : Entry}

theorem Accepts.terms_eq_none_iff (hp : p.Accepts tokens) (he : p.chart.entry? r = some e) :
    p.terms r = none ↔ e.vertex.Opens := by
  rw [terms, he, Option.bind_some, termsOf]
  rcases hp.vertex_cases he with ⟨n, hv⟩ | ⟨m, hv⟩ | ⟨n, hv⟩ | ⟨it, s, hv, hs⟩
  · simp [hv, Vertex.Opens]
  · simp [hv, Vertex.Opens, Item.previous?]
  · simp [hv, Vertex.Opens]
  · simp only [hv, Item.previous?_advance, hs]
    cases s <;> simp [Vertex.Opens, Item.advance]

theorem Accepts.not_opens {ts : List Term} (hp : p.Accepts tokens) (he : p.chart.entry? r = some e)
    (hts : p.terms r = some ts) : ¬e.vertex.Opens := by
  rw [← hp.terms_eq_none_iff he, hts]
  nofun

/-- The recursive equation of the counts below the accepting entry: an entry that opens counts once, and
any other one as the bounded sum over its terms of the bounded products of the counts in them. -/
def Solves (p : Parsing) (f : Ref → Nat) : Prop :=
  ∀ r e, ReflTransGen p.Feeds p.accept r → p.chart.entry? r = some e →
    f r = if e.vertex.Opens then 1 else
      ((p.terms r).getD []).foldl (fun sum term => boundedAdd sum (term.value f)) 0

theorem foldl_value_congr {ts : List Term} (h : ∀ q ∈ ts.flatMap Term.refs, f q = f' q) :
    ts.foldl (fun sum term => boundedAdd sum (term.value f)) 0 =
      ts.foldl (fun sum term => boundedAdd sum (term.value f')) 0 := by
  refine List.foldl_ext _ _ _ fun sum term hterm => congrArg (boundedAdd sum) ?_
  have hrefs : ∀ q ∈ term.refs, f q = f' q := fun q hq => h q (List.mem_flatMap.2 ⟨term, hterm, hq⟩)
  obtain ⟨source, _ | caller⟩ := term
  · exact hrefs source List.mem_cons_self
  · exact congrArg₂ boundedMul (hrefs source List.mem_cons_self)
      (hrefs caller (List.mem_cons_of_mem _ List.mem_cons_self))

namespace Counts

theorem unique (h : p.Counts r n) (h' : p.Counts r m) : n = m := by
  induction h generalizing m with
  | once h =>
    cases h' with
    | once => rfl
    | total h' => cases h.symm.trans h'
  | total h hf ih =>
    cases h' with
    | once h' => cases h.symm.trans h'
    | total h' hf' =>
      obtain rfl := Option.some.inj (h.symm.trans h')
      exact foldl_value_congr fun q hq => ih q hq (hf' q hq)

/-- A count is reached by way of the counts of the sources. -/
theorem exists_of_reflTransGen (h : p.Counts r n) (hreach : ReflTransGen p.Feeds r q) :
    ∃ m, p.Counts q m := by
  induction hreach with
  | refl => exact ⟨n, h⟩
  | tail _ hfeeds ih =>
    obtain ⟨ts, hts, hq⟩ := hfeeds
    obtain ⟨m, hm⟩ := ih
    cases hm with
    | once hnone => cases hnone.symm.trans hts
    | total hts' hf =>
      obtain rfl := Option.some.inj (hts'.symm.trans hts)
      exact ⟨_, hf _ hq⟩

/-- The equation holds where the function has the counts of an entry and of its sources. -/
theorem eq_of_solves (hp : p.Accepts tokens) (h : p.Counts r n) (hf : p.Solves f)
    (hreach : ReflTransGen p.Feeds p.accept r) : f r = n := by
  obtain ⟨e, he⟩ := hp.exists_entry?_of_reached hreach
  have hsolved := hf r e hreach he
  induction h generalizing e with
  | once h =>
    rwa [if_pos ((hp.terms_eq_none_iff he).1 h)] at hsolved
  | @total r ts f' hts _ ih =>
    rw [if_neg (hp.not_opens he hts), hts, Option.getD_some] at hsolved
    rw [hsolved]
    refine foldl_value_congr fun q hq => ?_
    have hbelow := hreach.tail ⟨ts, hts, hq⟩
    obtain ⟨e', he'⟩ := hp.exists_entry?_of_reached hbelow
    exact ih q hq hbelow e' he' (hf q e' hbelow he')

/-- If the accepting entry has a count, the counts of the entries below it solve the equation. -/
theorem exists_solves (hp : p.Accepts tokens) (h : p.Counts p.accept n) : ∃ f, p.Solves f := by
  have hcounts : ∀ q, ∃ m, ReflTransGen p.Feeds p.accept q → p.Counts q m := by
    intro q
    by_cases hreach : ReflTransGen p.Feeds p.accept q
    · obtain ⟨m, hm⟩ := h.exists_of_reflTransGen hreach
      exact ⟨m, fun _ => hm⟩
    · exact ⟨0, fun h => absurd h hreach⟩
  choose f hf using hcounts
  refine ⟨f, fun r e hreach he => ?_⟩
  generalize hm : f r = m
  have hr := hf r hreach
  rw [hm] at hr
  cases hr with
  | once hnone => rw [if_pos ((hp.terms_eq_none_iff he).1 hnone)]
  | @total _ ts f' hts hf' =>
    rw [if_neg (hp.not_opens he hts), hts, Option.getD_some]
    exact foldl_value_congr fun q hq => (hf' q hq).unique (hf q (hreach.tail ⟨ts, hts, hq⟩))

end Counts

end Parsing

/-- What the loop does over an accepted parse. However often an entry is met, it is opened once at most,
and a stop is at an entry that is met again below itself; else all entries are opened that the accepting
one is counted from. -/
structure Tallying.Explores (run : Tallying) (p : Parsing) : Prop where
  nodup_opened : run.opened.Nodup
  reached : ∀ r ∈ run.opened, Relation.ReflTransGen p.Feeds p.accept r
  cycle : ∀ r, run.outcome = .error r →
    Relation.ReflTransGen p.Feeds p.accept r ∧ Relation.TransGen p.Feeds r r
  complete : ∀ t, run.outcome = .ok t →
    ∀ r, Relation.ReflTransGen p.Feeds p.accept r → r ∈ run.opened

namespace Parsing

open Relation

variable {p : Parsing} {r q : Ref} {t : Tally} {n : Nat} {tokens : List Token} {run : Tallying}

theorem Tallies.counted_of_reached (hp : p.Accepts tokens)
    (h : p.Tallies [(p.accept, false)] (Tally.ofChart p.chart) run) (hend : run.outcome = .ok t)
    (hreach : ReflTransGen p.Feeds p.accept r) : t.isCounted r = true := by
  have hclosed := h.preserves (P := fun t => ∀ r q, t.isCounted r = true → p.Feeds r q →
    t.isCounted q = true) hp (counting_start hp) ?first ?count ?expand hend
  case first =>
    intro r q hr
    rw [Tally.isCounted, Tally.mark_ofChart] at hr
    cases hr
  case count =>
    intro r stack t hc hclosed s q hs hfeeds
    have hr : (t.setMark r (.counted (p.countAt t r))).isCounted r = true :=
      Tally.isCounted_iff.2 ⟨_, by rw [hc.mark_setMark, if_pos rfl]⟩
    by_cases hqr : q = r
    · rw [hqr]
      exact hr
    · apply hc.isCounted_setMark hqr
      by_cases hsr : s = r
      · rw [hsr] at hfeeds
        exact hc.owed.1 rfl q hfeeds
      · rw [Tally.isCounted, hc.mark_setMark, if_neg hsr] at hs
        exact hclosed s q hs hfeeds
  case expand =>
    intro r stack t hc hunseen hclosed s q hs hfeeds
    have hsr : s ≠ r := by
      rintro rfl
      rw [Tally.isCounted, hc.mark_setMark, if_pos rfl] at hs
      cases hs
    rw [Tally.isCounted, hc.mark_setMark, if_neg hsr] at hs
    have hq := hclosed s q hs hfeeds
    apply hc.isCounted_setMark _ hq
    rintro rfl
    cases (Tally.isCounted_of_unseen hunseen).symm.trans hq
  obtain ⟨hclosed, hc⟩ := hclosed
  induction hreach with
  | refl => exact hc.owed
  | tail _ hfeeds ih => exact hclosed _ _ ih hfeeds

theorem Tallies.explores (hp : p.Accepts tokens)
    (h : p.Tallies [(p.accept, false)] (Tally.ofChart p.chart) run) : run.Explores p where
  nodup_opened := (h.opened_unseen hp (counting_start hp)).1
  reached r hr := ((h.opened_unseen hp (counting_start hp)).2 r hr).2
  cycle r hstop := h.cycle hp (counting_start hp) hstop
  complete t hend r hreach := by
    rcases h.mem_opened_of_counted hp (counting_start hp) hend (h.counted_of_reached hp hend hreach) with
      hcounted | hstack | hopened
    · rw [Tally.isCounted, Tally.mark_ofChart] at hcounted
      cases hcounted
    · cases List.mem_singleton.1 hstack
    · exact hopened

namespace Accepts

/-- With the fuel that the program gives, or more, its loop makes the run without a bound. -/
theorem exists_tallies (hp : p.Accepts tokens) : ∃ run,
    p.Tallies [(p.accept, false)] (Tally.ofChart p.chart) run ∧ run.rounds ≤ p.countFuel ∧
      ∀ fuel, p.countFuel ≤ fuel →
        p.countFrom fuel [(p.accept, false)] (Tally.ofChart p.chart) = run.outcome.toOption := by
  obtain ⟨run, hrun, hle⟩ := (counting_start hp).exists_tallies hp remaining_ofChart.le
  refine ⟨run, hrun, hle, fun fuel hfuel => ?_⟩
  obtain ⟨extra, rfl⟩ := Nat.exists_eq_add_of_le (hle.trans hfuel)
  exact hrun.countFrom_eq extra

theorem countFrom_of_le (hp : p.Accepts tokens) {fuel : Nat} (hfuel : p.countFuel ≤ fuel) :
    p.countFrom fuel [(p.accept, false)] (Tally.ofChart p.chart) =
      p.countFrom p.countFuel [(p.accept, false)] (Tally.ofChart p.chart) := by
  obtain ⟨run, -, -, heq⟩ := hp.exists_tallies
  rw [heq fuel hfuel, heq _ (Nat.le_refl _)]

theorem derivationCount_eq_of_tallies (hp : p.Accepts tokens)
    (h : p.Tallies [(p.accept, false)] (Tally.ofChart p.chart) run) :
    p.derivationCount = run.outcome.toOption.map (·.count p.accept) := by
  obtain ⟨run', h', -, heq⟩ := hp.exists_tallies
  obtain rfl := h.unique h'
  rw [derivationCount, heq _ (Nat.le_refl _)]
  cases run.outcome <;> rfl

/-- The count is that of the recursion, and there is none just when a cycle is met. -/
theorem derivationCount_spec (hp : p.Accepts tokens) :
    match p.derivationCount with
    | none => ∃ q, ReflTransGen p.Feeds p.accept q ∧ TransGen p.Feeds q q
    | some n => p.Counts p.accept n := by
  obtain ⟨run, hrun, -, -⟩ := hp.exists_tallies
  rw [hp.derivationCount_eq_of_tallies hrun]
  cases hend : run.outcome with
  | error r => exact ⟨r, hrun.cycle hp (counting_start hp) hend⟩
  | ok t =>
    obtain ⟨n, hn⟩ := Tally.isCounted_iff.1 (hrun.counted_of_reached hp hend .refl)
    show p.Counts p.accept (t.count p.accept)
    rw [Tally.count_of_mark hn]
    exact (hrun.counting hp (counting_start hp) hend).counted hn

theorem derivationCount_eq_none_iff (hp : p.Accepts tokens) : p.derivationCount = none ↔
    ∃ r, ReflTransGen p.Feeds p.accept r ∧ TransGen p.Feeds r r := by
  have hspec := hp.derivationCount_spec
  cases hcount : p.derivationCount with
  | none =>
    rw [hcount] at hspec
    exact iff_of_true rfl hspec
  | some n =>
    rw [hcount] at hspec
    refine iff_of_false nofun ?_
    rintro ⟨r, hreach, hcycle⟩
    exact Counts.not_cycle hspec hreach hcycle

end Accepts

end Parsing

end GrammarFlow
