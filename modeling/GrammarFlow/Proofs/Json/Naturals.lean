import GrammarFlow.Json.Reader

namespace GrammarFlow.Json

/-- A number literal that comes before does not go on with this text. -/
def EndsNumber (rest : List Char) : Prop :=
  ∀ c ∈ rest.head?, c.isDigit = false ∧ c ≠ '.' ∧ c ≠ 'e' ∧ c ≠ 'E'

theorem endsNumber_nil : EndsNumber [] := nofun

theorem endsNumber_cons {c : Char} (h : c.isDigit = false ∧ c ≠ '.' ∧ c ≠ 'e' ∧ c ≠ 'E')
    (rest : List Char) : EndsNumber (c :: rest) := by
  intro d hd
  obtain rfl := Option.some.inj hd
  exact h

namespace Literal

variable {digits rest : List Char} {n : Nat}

theorem startsWithDigit_of_endsNumber (h : EndsNumber rest) : startsWithDigit rest = false := by
  cases rest with
  | nil => rfl
  | cons c rest => exact (h c rfl).1

theorem exists_toDigits_eq_cons (n : Nat) : ∃ c ds, Nat.toDigits 10 n = c :: ds :=
  List.exists_cons_of_ne_nil Nat.toDigits_ne_nil

theorem head?_toDigits_ne (h : 0 < n) : (Nat.toDigits 10 n).head? ≠ some '0' := by
  induction n using Nat.strongRecOn with
  | ind n ih =>
    by_cases hn : n < 10
    · rw [Nat.toDigits_of_lt_base hn, List.head?_singleton, ne_eq, Option.some.injEq,
        Nat.digitChar_eq_zero]
      exact Nat.ne_of_gt h
    · have hfirst := ih (n / 10) (by omega) (by omega)
      obtain ⟨c, ds, hcons⟩ := exists_toDigits_eq_cons (n / 10)
      rw [Nat.toDigits_of_base_le (by decide) (Nat.le_of_not_lt hn), hcons, List.cons_append]
      rwa [hcons] at hfirst

theorem natOf_toDigits (n : Nat) : natOf (Nat.toDigits 10 n) = n := by
  have h := Nat.ofDigitChars_ten_toDigits (n := n)
  rw [Nat.ofDigitChars_eq_foldl] at h
  exact h

theorem absorb_eq {m : Nat}
    (h : digits.foldl (fun n c => 10 * n + digitValue c) m ≤ maxSignificand) :
    absorb m digits = (digits.foldl (fun n c => 10 * n + digitValue c) m, []) := by
  have hle : ∀ (ds : List Char) (m : Nat), m ≤ ds.foldl (fun n c => 10 * n + digitValue c) m := by
    intro ds
    induction ds with
    | nil => exact fun m => Nat.le_refl m
    | cons c ds ih =>
      intro m
      have hnext := ih (10 * m + digitValue c)
      rw [List.foldl_cons]
      omega
  induction digits generalizing m with
  | nil => rfl
  | cons c digits ih =>
    rw [List.foldl_cons] at h
    rw [absorb, if_pos (Nat.le_trans (hle digits _) h), ih h, List.foldl_cons]

theorem someDigits_toDigits (atEnd : Fault) (n : Nat) (hrest : EndsNumber rest) :
    someDigits atEnd (Nat.toDigits 10 n ++ rest) = .ok (Nat.toDigits 10 n, rest) := by
  have hdigit : ∀ c ∈ Nat.toDigits 10 n, c.isDigit = true := fun c hc =>
    Nat.isDigit_of_mem_toDigits (by decide) (Nat.le_refl 10) hc
  have hstart : startsWithDigit (Nat.toDigits 10 n ++ rest) = true := by
    obtain ⟨c, ds, hcons⟩ := exists_toDigits_eq_cons n
    rw [hcons] at hdigit ⊢
    exact hdigit c List.mem_cons_self
  rw [someDigits, if_pos hstart, List.takeWhile_append_of_pos hdigit,
    List.dropWhile_append_of_pos hdigit]
  cases rest with
  | nil => rw [List.takeWhile_nil, List.append_nil, List.dropWhile_nil]
  | cons c rest =>
    have hstop : ¬c.isDigit = true := Bool.eq_false_iff.1 (hrest c rfl).1
    rw [List.takeWhile_cons_of_neg hstop, List.append_nil, List.dropWhile_cons_of_neg hstop]

theorem readWhole_toDigits (atEnd : Fault) (n : Nat) (hrest : EndsNumber rest) :
    readWhole atEnd (Nat.toDigits 10 n ++ rest) = .ok (Nat.toDigits 10 n, rest) := by
  rcases Nat.eq_zero_or_pos n with rfl | hpos
  · rw [Nat.toDigits_zero, List.singleton_append, readWhole,
      if_neg (Bool.eq_false_iff.1 (startsWithDigit_of_endsNumber hrest))]
  · rw [readWhole.eq_def]
    split
    · next heq =>
      obtain ⟨c, ds, hcons⟩ := exists_toDigits_eq_cons n
      rw [hcons, List.cons_append] at heq
      obtain ⟨rfl, -⟩ := List.cons.inj heq
      exact absurd (congrArg List.head? hcons) (head?_toDigits_ne hpos)
    · exact someDigits_toDigits atEnd n hrest

/-- The digits of a number are a literal without a sign, a fraction or an exponent. -/
theorem read_toDigits (atEnd : Fault) (n : Nat) (hrest : EndsNumber rest) :
    read atEnd (Nat.toDigits 10 n ++ rest) = .ok (⟨false, Nat.toDigits 10 n, none, none⟩, rest) := by
  have hfraction : readFraction atEnd rest = .ok (none, rest) := by
    rw [readFraction.eq_def]
    split
    · exact absurd rfl (hrest '.' rfl).2.1
    · rfl
  have hexponent : readExponent atEnd rest = .ok (none, rest) := by
    cases rest with
    | nil => rfl
    | cons c rest =>
      obtain ⟨-, -, he, hE⟩ := hrest c rfl
      rw [readExponent, if_neg (not_or.2 ⟨he, hE⟩)]
  have hsign : ∀ s, Nat.toDigits 10 n ++ rest ≠ '-' :: s := by
    intro s heq
    obtain ⟨c, ds, hcons⟩ := exists_toDigits_eq_cons n
    have hdigit := Nat.isDigit_of_mem_toDigits (by decide) (Nat.le_refl 10) (hcons ▸ List.mem_cons_self)
    rw [hcons, List.cons_append] at heq
    obtain ⟨rfl, -⟩ := List.cons.inj heq
    exact absurd hdigit (by decide)
  rw [read.eq_def]
  split
  next heq =>
    split at heq
    · next hminus => exact absurd hminus (hsign _)
    · obtain ⟨rfl, rfl⟩ := Prod.mk.inj heq
      rw [readWhole_toDigits atEnd n hrest]
      simp only [bind, Except.bind, hfraction, hexponent]
      rfl

theorem value_toDigits (h : n ≤ maxSignificand) :
    value ⟨false, Nat.toDigits 10 n, none, none⟩ = .ok (.integer n) := by
  have habsorb : absorb 0 (Nat.toDigits 10 n) = (n, []) := by
    have hvalue : (Nat.toDigits 10 n).foldl (fun n c => 10 * n + digitValue c) 0 = n :=
      natOf_toDigits n
    rw [absorb_eq (Nat.le_trans (Nat.le_of_eq hvalue) h), hvalue]
  simp [value, habsorb]

end Literal

theorem numberValue_toDigits {n : Nat} (h : n ≤ Literal.maxSignificand) {rest : List Char}
    (hrest : EndsNumber rest) :
    numberValue (Nat.toDigits 10 n ++ rest) = .ok (.integer n, rest) := by
  rw [numberValue, Literal.read_toDigits .truncated n hrest]
  simp only [bind, Except.bind, Literal.value_toDigits h]
  rfl

end GrammarFlow.Json
