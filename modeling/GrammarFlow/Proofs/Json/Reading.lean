import GrammarFlow.Json.Printer
import GrammarFlow.Json.Record
import GrammarFlow.Proofs.Json.Naturals
import Mathlib.Data.List.Basic

namespace GrammarFlow.Json

/-! Strings -/

theorem hexValue?_hexDigit : ∀ n < 16, hexValue? (hexDigit n) = some n := by decide

theorem codeUnit_hexDigits {n : Nat} (h : n < 0x20) (s : List Char) :
    codeUnit ('0' :: '0' :: hexDigit (n / 16) :: hexDigit (n % 16) :: s) = .ok (n, s) := by
  have hzero : hexValue? '0' = some 0 := by decide
  have hhigh := hexValue?_hexDigit (n / 16) (by omega)
  have hlow := hexValue?_hexDigit (n % 16) (by omega)
  simp only [codeUnit, hzero, hhigh, hlow]
  have hvalue : ((0 * 16 + 0) * 16 + n / 16) * 16 + n % 16 = n := by omega
  rw [hvalue]

theorem unicodeEscape_hexDigits {c : Char} (h : c.toNat < 0x20) (s : List Char) :
    unicodeEscape ('0' :: '0' :: hexDigit (c.toNat / 16) :: hexDigit (c.toNat % 16) :: s) =
      .ok (c, s) := by
  have hlow : isLowSurrogate c.toNat = false := by
    simp only [isLowSurrogate, Bool.and_eq_false_iff, decide_eq_false_iff_not]
    omega
  have hhigh : isHighSurrogate c.toNat = false := by
    simp only [isHighSurrogate, Bool.and_eq_false_iff, decide_eq_false_iff_not]
    omega
  rw [unicodeEscape, codeUnit_hexDigits h]
  simp only [bind, Except.bind, hlow, hhigh, Bool.false_eq_true, if_false, Char.ofNat_toNat]

theorem stringRest_letter {unicode : List Char → Reading Char} {c d : Char}
    (h : letterEscape? d = some c) (n : Nat) (seen s : List Char) :
    stringRest unicode (n + 1) seen ('\\' :: d :: s) = stringRest unicode n (c :: seen) s := by
  rw [stringRest, if_neg (by decide), if_pos rfl, readEscape, h]

/-- A character is escaped by a letter or by its code, or it stands for itself. -/
theorem escape_cases (c : Char) : (∃ d, letterEscape? d = some c ∧ escape c = ['\\', d]) ∨
    (c.toNat < 0x20 ∧ escape c =
      ['\\', 'u', '0', '0', hexDigit (c.toNat / 16), hexDigit (c.toNat % 16)]) ∨
    (c ≠ '"' ∧ c ≠ '\\' ∧ ¬c.toNat < 0x20 ∧ escape c = [c]) := by
  by_cases hletter : c ∈ ['"', '\\', '\x08', '\x0c', '\n', '\r', '\t']
  · left
    simp only [List.mem_cons, List.not_mem_nil, or_false] at hletter
    rcases hletter with rfl | rfl | rfl | rfl | rfl | rfl | rfl
    · exact ⟨'"', by decide⟩
    · exact ⟨'\\', by decide⟩
    · exact ⟨'b', by decide⟩
    · exact ⟨'f', by decide⟩
    · exact ⟨'n', by decide⟩
    · exact ⟨'r', by decide⟩
    · exact ⟨'t', by decide⟩
  · right
    simp only [List.mem_cons, List.not_mem_nil, or_false, not_or] at hletter
    obtain ⟨hquote, hbackslash, hb, hf, hn, hr, ht⟩ := hletter
    rw [escape, if_neg hquote, if_neg hbackslash, if_neg hb, if_neg hf, if_neg hn, if_neg hr,
      if_neg ht]
    by_cases hcontrol : c.toNat < 0x20
    · exact Or.inl ⟨hcontrol, if_pos hcontrol⟩
    · exact Or.inr ⟨hquote, hbackslash, hcontrol, if_neg hcontrol⟩

theorem stringRest_escape (c : Char) (n : Nat) (seen s : List Char) :
    stringRest unicodeEscape (n + 1) seen (escape c ++ s) =
      stringRest unicodeEscape n (c :: seen) s := by
  rcases escape_cases c with ⟨d, hletter, heq⟩ | ⟨hcontrol, heq⟩ |
    ⟨hquote, hbackslash, hcontrol, heq⟩
  · rw [heq]
    exact stringRest_letter hletter n seen s
  · have hletter : letterEscape? 'u' = none := by decide
    rw [heq]
    simp only [List.cons_append, List.nil_append]
    rw [stringRest, if_neg (by decide), if_pos rfl, readEscape, hletter]
    dsimp only
    rw [if_pos rfl, unicodeEscape_hexDigits hcontrol]
  · rw [heq, List.singleton_append, stringRest, if_neg hquote, if_neg hbackslash, if_neg hcontrol]

def quoted (s : String) : List Char := '"' :: (s.toList.flatMap escape ++ ['"'])

@[simp] theorem toList_quote (s : String) : (quote s).toList = quoted s := String.toList_ofList

theorem escape_ne_nil (c : Char) : escape c ≠ [] := by
  rcases escape_cases c with ⟨d, -, heq⟩ | ⟨-, heq⟩ | ⟨-, -, -, heq⟩
  · simp [heq]
  · simp [heq]
  · simp [heq]

theorem length_lt_quoted (s : String) : s.toList.length < (quoted s).length := by
  have hle : ∀ cs : List Char, cs.length ≤ (cs.flatMap escape).length := by
    intro cs
    induction cs with
    | nil => exact Nat.le_refl _
    | cons c cs ih =>
      have hpos := List.length_pos_iff.2 (escape_ne_nil c)
      rw [List.flatMap_cons, List.length_append, List.length_cons]
      omega
  have hs := hle s.toList
  simp only [quoted, List.length_cons, List.length_append, List.length_nil]
  omega

theorem stringTail_quoted {size : Nat} {s : String} (h : s.toList.length < size)
    (rest : List Char) :
    stringTail size (s.toList.flatMap escape ++ '"' :: rest) = .ok (s, rest) := by
  have hall : ∀ (cs seen : List Char) (n : Nat), cs.length < n →
      stringRest unicodeEscape n seen (cs.flatMap escape ++ '"' :: rest) =
        .ok (String.ofList (seen.reverse ++ cs), rest) := by
    intro cs
    induction cs with
    | nil =>
      intro seen n hn
      obtain _ | n := n
      · exact absurd hn (Nat.not_lt_zero _)
      rw [List.flatMap_nil, List.nil_append, stringRest, if_pos rfl, List.append_nil]
    | cons c cs ih =>
      intro seen n hn
      obtain _ | n := n
      · exact absurd hn (Nat.not_lt_zero _)
      rw [List.flatMap_cons, List.append_assoc, stringRest_escape,
        ih (c :: seen) n (Nat.lt_of_succ_lt_succ hn), List.reverse_cons, List.append_assoc,
        List.singleton_append]
  rw [stringTail, hall s.toList [] size h, List.reverse_nil, List.nil_append, String.ofList_toList]

/-! Parts with commas between them -/

def joined (parts : List (List Char)) : List Char := [','].intercalate parts

theorem joined_cons (part : List Char) (parts : List (List Char)) :
    joined (part :: parts) = part ++ parts.flatMap (',' :: ·) := by
  induction parts generalizing part with
  | nil => simp [joined, List.intercalate]
  | cons next parts ih =>
    have hnext : joined (part :: next :: parts) = part ++ ',' :: joined (next :: parts) := by
      simp [joined, List.intercalate, List.intersperse]
    rw [hnext, ih, List.flatMap_cons, List.cons_append]

theorem length_le_joined {part : List Char} {parts : List (List Char)} (h : part ∈ parts) :
    part.length ≤ (joined parts).length := by
  cases parts with
  | nil => cases h
  | cons first parts =>
    rw [joined_cons, List.length_append]
    rcases List.mem_cons.1 h with rfl | h
    · exact Nat.le_add_right _ _
    · have hsub : (',' :: part).Sublist (parts.flatMap (',' :: ·)) := by
        rw [List.flatMap_def]
        exact List.sublist_flatten_of_mem (List.mem_map_of_mem h)
      have hle := hsub.length_le
      rw [List.length_cons] at hle
      omega

theorem length_parts_le (parts : List (List Char)) :
    parts.length ≤ (joined parts).length + 1 := by
  have hall : ∀ parts : List (List Char), parts.length ≤ (parts.flatMap (',' :: ·)).length := by
    intro parts
    induction parts with
    | nil => exact Nat.le_refl _
    | cons part parts ih =>
      rw [List.flatMap_cons, List.length_append, List.length_cons, List.length_cons]
      omega
  cases parts with
  | nil => exact Nat.zero_le _
  | cons part parts =>
    have hle := hall parts
    rw [joined_cons, List.length_append, List.length_cons]
    omega

theorem skipSpace_cons {c : Char} (h : isSpace c = false) (s : List Char) :
    skipSpace (c :: s) = c :: s := List.dropWhile_cons_of_neg (by simp [h])

def IsBlank (blank : List Char) : Prop := ∀ c ∈ blank, isSpace c = true

theorem isBlank_nil : IsBlank [] := nofun

theorem skipSpace_append {blank : List Char} (h : IsBlank blank) (s : List Char) :
    skipSpace (blank ++ s) = skipSpace s := List.dropWhile_append_of_pos h

theorem value_append {blank : List Char} (h : IsBlank blank) (size room : Nat) (s : List Char) :
    value size room (blank ++ s) = value size room s := by
  rw [value.eq_def, skipSpace_append h, ← value.eq_def]

theorem endsNumber_append {blank rest : List Char} (h : IsBlank blank) (hrest : EndsNumber rest) :
    EndsNumber (blank ++ rest) := by
  cases blank with
  | nil => exact hrest
  | cons c blank =>
    have hspace := h c List.mem_cons_self
    simp only [isSpace, Bool.or_eq_true, beq_iff_eq] at hspace
    refine endsNumber_cons ?_ (blank ++ rest)
    rcases hspace with ((rfl | rfl) | rfl) | rfl <;> decide

/-- The blanks around the parts of an array or object: in front of each part, and in front of the closing
bracket. -/
structure Layout where
  lead : List Char
  trail : List Char
  isBlank_lead : IsBlank lead
  isBlank_trail : IsBlank trail

namespace Layout

def compact : Layout := ⟨[], [], isBlank_nil, isBlank_nil⟩

/-- What stands between the brackets. -/
def spread (l : Layout) (parts : List (List Char)) : List Char :=
  if parts.isEmpty then [] else joined (parts.map (l.lead ++ ·)) ++ l.trail

/-- The parts that follow another one. -/
def later (l : Layout) (parts : List (List Char)) : List Char :=
  parts.flatMap fun part => ',' :: (l.lead ++ part)

variable (l : Layout) {part : List Char} {parts : List (List Char)}

theorem later_cons (part : List Char) (parts : List (List Char)) :
    l.later (part :: parts) = ',' :: (l.lead ++ part) ++ l.later parts := List.flatMap_cons

theorem spread_cons (part : List Char) (parts : List (List Char)) :
    l.spread (part :: parts) = l.lead ++ part ++ l.later parts ++ l.trail := by
  rw [spread, List.isEmpty_cons, if_neg Bool.false_ne_true, List.map_cons, joined_cons,
    List.flatMap_map]
  rfl

theorem spread_compact (parts : List (List Char)) : compact.spread parts = joined parts := by
  cases parts with
  | nil => rfl
  | cons part parts =>
    rw [spread_cons, joined_cons, compact, List.nil_append, List.append_nil]
    rfl

theorem length_le_spread (h : part ∈ parts) : part.length ≤ (l.spread parts).length := by
  have hne : parts.isEmpty = false := by
    cases parts with
    | nil => cases h
    | cons _ _ => rfl
  have hle := length_le_joined (List.mem_map_of_mem h (f := (l.lead ++ ·)))
  rw [List.length_append] at hle
  rw [spread, hne, if_neg Bool.false_ne_true, List.length_append]
  omega

theorem length_parts_le_spread (parts : List (List Char)) :
    parts.length ≤ (l.spread parts).length + 1 := by
  have hle := length_parts_le (parts.map (l.lead ++ ·))
  rw [List.length_map] at hle
  rw [spread]
  split
  · next hempty =>
    rw [List.isEmpty_iff] at hempty
    rw [hempty]
    exact Nat.zero_le _
  · rw [List.length_append]
    omega

/-- Behind a part comes a comma or the closing bracket, with blanks in front of it at most. -/
theorem endsNumber_later (parts : List (List Char)) {c : Char}
    (hc : c.isDigit = false ∧ c ≠ '.' ∧ c ≠ 'e' ∧ c ≠ 'E') (rest : List Char) :
    EndsNumber (l.later parts ++ (l.trail ++ c :: rest)) := by
  cases parts with
  | nil =>
    rw [later, List.flatMap_nil, List.nil_append]
    exact endsNumber_append l.isBlank_trail (endsNumber_cons hc rest)
  | cons part parts => exact endsNumber_cons (by decide) _

end Layout

/-- The reader gives the value of the text and leaves what follows, if that does not go on with a
number. No space comes first, nor a bracket that would close an array. -/
structure Takes {α : Type} (read : List Char → Reading α) (text : List Char) (x : α) : Prop where
  opens : ∃ c s, text = c :: s ∧ isSpace c = false ∧ c ≠ ']'
  read : ∀ rest, EndsNumber rest → read (text ++ rest) = .ok (x, rest)

namespace Takes

variable {α β : Type} {read : List Char → Reading α} {text : List Char} {x : α} {size room : Nat}

theorem map (h : Takes read text x) (f : α → β) :
    Takes (fun s => (read s).map fun (x, s) => (f x, s)) text (f x) where
  opens := h.opens
  read rest hrest := by
    dsimp only
    rw [h.read rest hrest]
    rfl

theorem optional (h : Takes read text x) (hnull : text.head? ≠ some 'n') :
    Takes (Json.optional read) text (some x) where
  opens := h.opens
  read rest hrest := by
    obtain ⟨c, s, rfl, hspace, -⟩ := h.opens
    have hread := h.read rest hrest
    rw [List.cons_append] at hread ⊢
    rw [Json.optional, skipSpace_cons hspace]
    split
    · next heq =>
      obtain ⟨rfl, -⟩ := List.cons.inj heq
      exact absurd rfl hnull
    · rw [hread]
      rfl

theorem colon (h : Takes read text x) {rest : List Char} (hrest : EndsNumber rest) :
    (Json.colon (':' :: (text ++ rest)) >>= read) = .ok (x, rest) := by
  have hcolon : Json.colon (':' :: (text ++ rest)) = .ok (text ++ rest) := rfl
  rw [hcolon]
  exact h.read rest hrest

theorem string {s : String} (h : (quoted s).length ≤ size) :
    Takes (Json.string size) (quoted s) s where
  opens := ⟨'"', _, rfl, by decide, by decide⟩
  read rest _ := by
    have hs := Nat.lt_of_lt_of_le (length_lt_quoted s) h
    rw [quoted, List.cons_append, List.append_assoc, List.singleton_append, Json.string,
      skipSpace_cons (by decide)]
    exact stringTail_quoted hs rest

theorem value_string {s : String} (h : (quoted s).length ≤ size) :
    Takes (value size room) (quoted s) (.string s) where
  opens := ⟨'"', _, rfl, by decide, by decide⟩
  read rest _ := by
    have hs := Nat.lt_of_lt_of_le (length_lt_quoted s) h
    rw [quoted, List.cons_append, List.append_assoc, List.singleton_append, value,
      skipSpace_cons (by decide)]
    simp [stringTail_quoted hs, Except.map]

theorem value_natural {n : Nat} (h : n ≤ Literal.maxSignificand) :
    Takes (value size room) (Nat.toDigits 10 n) (.number (.integer n)) := by
  obtain ⟨c, ds, hcons⟩ := Literal.exists_toDigits_eq_cons n
  have hdigit : c.isDigit = true :=
    Nat.isDigit_of_mem_toDigits (by decide) (Nat.le_refl 10) (hcons ▸ List.mem_cons_self)
  have hne : ∀ d : Char, d.isDigit = false → c ≠ d := by
    rintro d hd rfl
    rw [hdigit] at hd
    cases hd
  have hspace : isSpace c = false := by
    simp only [isSpace, Bool.or_eq_false_iff, beq_eq_false_iff_ne]
    exact ⟨⟨⟨hne _ (by decide), hne _ (by decide)⟩, hne _ (by decide)⟩, hne _ (by decide)⟩
  refine ⟨⟨c, ds, hcons, hspace, hne _ (by decide)⟩, fun rest hrest => ?_⟩
  have hnumber := numberValue_toDigits h hrest
  rw [hcons, List.cons_append] at hnumber ⊢
  rw [value, skipSpace_cons hspace]
  simp only [hne 'n' (by decide), hne 't' (by decide), hne 'f' (by decide), hne '"' (by decide),
    startsNumber, hdigit, Bool.or_true, if_true, if_false, hnumber]
  rfl

variable {lead : List Char}

theorem nextItem_first (h : Takes read text x) (hlead : IsBlank lead) (rest : List Char) :
    nextItem true (lead ++ (text ++ rest)) = .ok (.entry (text ++ rest)) := by
  obtain ⟨c, s, rfl, hspace, hclose⟩ := h.opens
  rw [nextItem, skipSpace_append hlead, List.cons_append, skipSpace_cons hspace]
  split
  · next heq => cases heq
  · next heq => exact absurd (List.cons.inj heq).1 hclose
  · next heq =>
    obtain ⟨rfl, rfl⟩ := List.cons.inj heq
    rfl

theorem nextItem_later (h : Takes read text x) (hlead : IsBlank lead) (rest : List Char) :
    nextItem false (',' :: (lead ++ (text ++ rest))) = .ok (.entry (text ++ rest)) := by
  obtain ⟨c, s, rfl, hspace, hclose⟩ := h.opens
  rw [nextItem, skipSpace_cons (by decide)]
  split
  · next heq => cases heq
  · next heq => cases heq
  · next heq =>
    obtain ⟨rfl, rfl⟩ := List.cons.inj heq
    rw [if_neg Bool.false_ne_true, if_pos rfl, skipSpace_append hlead, List.cons_append,
      skipSpace_cons hspace]
    split
    · next heq => cases heq
    · next heq => exact absurd (List.cons.inj heq).1 hclose
    · rfl

end Takes

section Items

variable {α : Type} {item : List Char → Reading α} {text : α → List Char} {xs : List α}
  {size room n : Nat} {l : Layout}

theorem nextItem_close {trail : List Char} (h : IsBlank trail) (first : Bool) (rest : List Char) :
    nextItem first (trail ++ ']' :: rest) = .ok (.closed rest) := by
  rw [nextItem, skipSpace_append h]
  rfl

theorem items_later (h : ∀ x ∈ xs, Takes item (text x) x) (hn : xs.length < n) {seen : List α}
    (hseen : seen.isEmpty = false) (rest : List Char) :
    items item n seen (l.later (xs.map text) ++ (l.trail ++ ']' :: rest)) =
      .ok (seen.reverse ++ xs, rest) := by
  induction xs generalizing n seen with
  | nil =>
    obtain _ | n := n
    · exact absurd hn (Nat.not_lt_zero _)
    rw [List.map_nil, Layout.later, List.flatMap_nil, List.nil_append, items,
      nextItem_close l.isBlank_trail, List.append_nil]
  | cons x xs ih =>
    obtain _ | n := n
    · exact absurd hn (Nat.not_lt_zero _)
    have hx := h x List.mem_cons_self
    rw [List.map_cons, Layout.later_cons, List.cons_append, List.cons_append, List.append_assoc,
      List.append_assoc, items, hseen, hx.nextItem_later l.isBlank_lead]
    dsimp only
    rw [hx.read _ (l.endsNumber_later _ (by decide) rest)]
    dsimp only
    rw [ih (fun y hy => h y (List.mem_cons_of_mem x hy)) (Nat.lt_of_succ_lt_succ hn) rfl,
      List.reverse_cons, List.append_assoc, List.singleton_append]

theorem items_spread (h : ∀ x ∈ xs, Takes item (text x) x) (hn : xs.length < n)
    (rest : List Char) :
    items item n [] (l.spread (xs.map text) ++ ']' :: rest) = .ok (xs, rest) := by
  obtain _ | n := n
  · exact absurd hn (Nat.not_lt_zero _)
  cases xs with
  | nil =>
    have hclose : nextItem true (']' :: rest) = .ok (.closed rest) := nextItem_close isBlank_nil true rest
    rw [List.map_nil, Layout.spread, List.isEmpty_nil, if_pos rfl, List.nil_append, items,
      List.isEmpty_nil, hclose, List.reverse_nil]
  | cons x xs =>
    have hx := h x List.mem_cons_self
    rw [List.map_cons, Layout.spread_cons, List.append_assoc, List.append_assoc, List.append_assoc,
      items, List.isEmpty_nil, hx.nextItem_first l.isBlank_lead]
    dsimp only
    rw [hx.read _ (l.endsNumber_later _ (by decide) rest)]
    dsimp only
    rw [items_later (fun y hy => h y (List.mem_cons_of_mem x hy)) (Nat.lt_of_succ_lt_succ hn) rfl]
    rfl

def arrayText (l : Layout) (parts : List (List Char)) : List Char := '[' :: (l.spread parts ++ [']'])

theorem length_lt_arrayText (l : Layout) (parts : List (List Char)) :
    parts.length < (arrayText l parts).length := by
  have hle := l.length_parts_le_spread parts
  simp only [arrayText, List.length_cons, List.length_append, List.length_nil]
  omega

theorem length_part_lt_arrayText {part : List Char} {parts : List (List Char)} (h : part ∈ parts) :
    part.length < (arrayText l parts).length := by
  have hle := l.length_le_spread h
  simp only [arrayText, List.length_cons, List.length_append, List.length_nil]
  omega

theorem Takes.arrayOf (h : ∀ x ∈ xs, Takes item (text x) x)
    (hsize : (arrayText l (xs.map text)).length ≤ size) :
    Takes (Json.arrayOf size item) (arrayText l (xs.map text)) xs where
  opens := ⟨'[', _, rfl, by decide, by decide⟩
  read rest _ := by
    have hn := Nat.lt_of_lt_of_le (length_lt_arrayText l (xs.map text)) hsize
    rw [List.length_map] at hn
    rw [arrayText, List.cons_append, List.append_assoc, List.singleton_append, Json.arrayOf,
      skipSpace_cons (by decide)]
    exact items_spread h hn rest

theorem Takes.value_array {vs : List Value} {text : Value → List Char}
    (h : ∀ v ∈ vs, Takes (value size room) (text v) v)
    (hsize : (arrayText l (vs.map text)).length ≤ size) :
    Takes (value size (room + 1)) (arrayText l (vs.map text)) (.array vs) where
  opens := ⟨'[', _, rfl, by decide, by decide⟩
  read rest _ := by
    have hn := Nat.lt_of_lt_of_le (length_lt_arrayText l (vs.map text)) hsize
    rw [List.length_map] at hn
    rw [arrayText, List.cons_append, List.append_assoc, List.singleton_append, value,
      skipSpace_cons (by decide)]
    have hitems := items_spread (l := l) h hn rest
    simp [hitems, startsNumber, Except.map]

end Items

/-- Reading the members one after the other leads from one state to another. -/
inductive Passes {σ : Type} (member : String → σ → List Char → Reading σ) :
    σ → List (String × List Char) → σ → Prop where
  | nil (state : σ) : Passes member state [] state
  | cons {key : String} {text : List Char} {state next last : σ}
    {parts : List (String × List Char)}
    (hread : ∀ rest, EndsNumber rest → member key state (':' :: (text ++ rest)) = .ok (next, rest))
    (hparts : Passes member next parts last) : Passes member state ((key, text) :: parts) last

section Members

variable {σ : Type} {size n : Nat} {member : String → σ → List Char → Reading σ}
  {key : String} {text : List Char} {state last : σ}
  {parts : List (String × List Char)} {l : Layout}

def memberText (part : String × List Char) : List Char := quoted part.1 ++ ':' :: part.2

def objectText (l : Layout) (parts : List (String × List Char)) : List Char :=
  '{' :: (l.spread (parts.map memberText) ++ ['}'])

theorem nextKey_close {trail : List Char} (h : IsBlank trail) (first : Bool) (rest : List Char) :
    nextKey first (trail ++ '\x7d' :: rest) = .ok (.closed rest) := by
  rw [nextKey, skipSpace_append h]
  rfl

theorem nextKey_first {lead : List Char} (h : IsBlank lead) (key : String) (rest : List Char) :
    nextKey true (lead ++ (quoted key ++ rest)) =
      .ok (.entry (key.toList.flatMap escape ++ '"' :: rest)) := by
  rw [nextKey, skipSpace_append h, quoted, List.cons_append, List.append_assoc,
    List.singleton_append]
  rfl

theorem nextKey_later {lead : List Char} (h : IsBlank lead) (key : String) (rest : List Char) :
    nextKey false (',' :: (lead ++ (quoted key ++ rest))) =
      .ok (.entry (key.toList.flatMap escape ++ '"' :: rest)) := by
  rw [nextKey, skipSpace_cons (by decide)]
  split
  · next heq => cases heq
  · next heq => cases heq
  · next heq =>
    obtain ⟨rfl, rfl⟩ := List.cons.inj heq
    rw [if_neg Bool.false_ne_true, if_pos rfl, skipSpace_append h, quoted, List.cons_append,
      List.append_assoc, List.singleton_append]
    rfl

theorem members_later (h : Passes member state parts last)
    (hkeys : ∀ part ∈ parts, part.1.toList.length < size) (hn : parts.length < n)
    (rest : List Char) :
    members size member n false state
        (l.later (parts.map memberText) ++ (l.trail ++ '\x7d' :: rest)) = .ok (last, rest) := by
  induction h generalizing n with
  | nil state =>
    obtain _ | n := n
    · exact absurd hn (Nat.not_lt_zero _)
    rw [List.map_nil, Layout.later, List.flatMap_nil, List.nil_append, members,
      nextKey_close l.isBlank_trail]
  | @cons key text state next last parts hread _ ih =>
    obtain _ | n := n
    · exact absurd hn (Nat.not_lt_zero _)
    have hkey : key.toList.length < size := hkeys (key, text) List.mem_cons_self
    rw [List.map_cons, Layout.later_cons, List.cons_append, List.cons_append, List.append_assoc,
      List.append_assoc, memberText, List.append_assoc, members, nextKey_later l.isBlank_lead]
    dsimp only
    rw [stringTail_quoted hkey]
    dsimp only
    rw [List.cons_append, hread _ (l.endsNumber_later _ (by decide) rest)]
    exact ih (fun part hpart => hkeys part (List.mem_cons_of_mem _ hpart))
      (Nat.lt_of_succ_lt_succ hn)

theorem members_spread (h : Passes member state parts last)
    (hkeys : ∀ part ∈ parts, part.1.toList.length < size) (hn : parts.length < n)
    (rest : List Char) :
    members size member n true state (l.spread (parts.map memberText) ++ '\x7d' :: rest) =
      .ok (last, rest) := by
  obtain _ | n := n
  · exact absurd hn (Nat.not_lt_zero _)
  cases h with
  | nil =>
    have hclose : nextKey true ('\x7d' :: rest) = .ok (.closed rest) :=
      nextKey_close isBlank_nil true rest
    rw [List.map_nil, Layout.spread, List.isEmpty_nil, if_pos rfl, List.nil_append, members, hclose]
  | @cons key text _ next _ parts hread hparts =>
    have hkey : key.toList.length < size := hkeys (key, text) List.mem_cons_self
    rw [List.map_cons, Layout.spread_cons, List.append_assoc, List.append_assoc, List.append_assoc,
      memberText, List.append_assoc, members, nextKey_first l.isBlank_lead]
    dsimp only
    rw [stringTail_quoted hkey]
    dsimp only
    rw [List.cons_append, hread _ (l.endsNumber_later _ (by decide) rest)]
    exact members_later hparts (fun part hpart => hkeys part (List.mem_cons_of_mem _ hpart))
      (Nat.lt_of_succ_lt_succ hn) rest

theorem length_lt_objectText (l : Layout) (parts : List (String × List Char)) :
    parts.length < (objectText l parts).length := by
  have hle := l.length_parts_le_spread (parts.map memberText)
  rw [List.length_map] at hle
  simp only [objectText, List.length_cons, List.length_append, List.length_nil]
  omega

theorem length_part_lt_objectText {part : String × List Char} (h : part ∈ parts) :
    (quoted part.1).length < (objectText l parts).length ∧
      part.2.length < (objectText l parts).length := by
  have hle := l.length_le_spread (List.mem_map_of_mem h (f := memberText))
  simp only [memberText, List.length_append, List.length_cons] at hle
  simp only [objectText, List.length_cons, List.length_append, List.length_nil]
  omega

/-- The object whose brace has been seen. -/
theorem members_objectText (h : Passes member state parts last)
    (hsize : (objectText l parts).length ≤ size) (rest : List Char) :
    members size member size true state (l.spread (parts.map memberText) ++ '\x7d' :: rest) =
      .ok (last, rest) := by
  apply members_spread h
  · intro part hpart
    have hkey := length_lt_quoted part.1
    have hle := (length_part_lt_objectText (l := l) hpart).1
    omega
  · exact Nat.lt_of_lt_of_le (length_lt_objectText l parts) hsize

end Members

/-! Objects as lists of members, and records -/

theorem insertMember_of_not_mem {α : Type} {key : String} {value : α} {state : List (String × α)}
    (h : key ∉ state.map (·.1)) : insertMember key value state = state ++ [(key, value)] := by
  induction state with
  | nil => rfl
  | cons m state ih =>
    obtain ⟨k, v⟩ := m
    rw [List.map_cons, List.mem_cons, not_or] at h
    rw [insertMember, if_neg (Ne.symm h.1), ih h.2, List.cons_append]

section Objects

variable {ρ : Type} {size room : Nat} {text : Value → List Char} {ms state : List (String × Value)}
  {fields : List (Field ρ)} {l : Layout} {gap : List Char}

/-- Members are stored in order, with blanks between a colon and its value. -/
theorem passes_storeMember (hgap : IsBlank gap)
    (h : ∀ m ∈ ms, Takes (value size room) (text m.2) m.2)
    (hkeys : ((state ++ ms).map (·.1)).Nodup) :
    Passes (storeMember (value size room)) state (ms.map fun m => (m.1, gap ++ text m.2))
      (state ++ ms) := by
  induction ms generalizing state with
  | nil =>
    rw [List.append_nil]
    exact .nil state
  | cons m ms ih =>
    obtain ⟨key, v⟩ := m
    have hnew : key ∉ state.map (·.1) := by
      rw [List.map_append, List.nodup_append] at hkeys
      exact fun hmem => hkeys.2.2 key hmem key (by simp) rfl
    have hstate : state ++ (key, v) :: ms = insertMember key v state ++ ms := by
      rw [insertMember_of_not_mem hnew, List.append_assoc, List.singleton_append]
    rw [hstate] at hkeys ⊢
    refine .cons (fun rest hrest => ?_) (ih (fun m hm => h m (List.mem_cons_of_mem _ hm)) hkeys)
    have hcolon : colon (':' :: (gap ++ text v ++ rest)) = .ok (gap ++ text v ++ rest) := rfl
    have hv : value size room (gap ++ text v ++ rest) = .ok (v, rest) := by
      rw [List.append_assoc, value_append hgap]
      exact (h _ List.mem_cons_self).read rest hrest
    rw [storeMember, hcolon]
    dsimp only
    rw [hv]
    rfl

theorem Takes.objectMembers (text : Value → List Char)
    (h : ∀ m ∈ ms, Takes (value size room) (text m.2) m.2) (hkeys : (ms.map (·.1)).Nodup)
    (hsize : (objectText l (ms.map fun m => (m.1, text m.2))).length ≤ size) :
    Takes (Json.objectMembers size room) (objectText l (ms.map fun m => (m.1, text m.2))) ms where
  opens := ⟨'\x7b', _, rfl, by decide, by decide⟩
  read rest _ := by
    rw [objectText, List.cons_append, List.append_assoc, List.singleton_append,
      Json.objectMembers, skipSpace_cons (by decide)]
    have hpasses : Passes (storeMember (value size room)) [] (ms.map fun m => (m.1, text m.2)) ms :=
      passes_storeMember isBlank_nil h hkeys
    exact members_objectText hpasses hsize rest

theorem Takes.value_object (hgap : IsBlank gap) (text : Value → List Char)
    (h : ∀ m ∈ ms, Takes (value size room) (text m.2) m.2) (hkeys : (ms.map (·.1)).Nodup)
    (hsize : (objectText l (ms.map fun m => (m.1, gap ++ text m.2))).length ≤ size) :
    Takes (value size (room + 1)) (objectText l (ms.map fun m => (m.1, gap ++ text m.2)))
      (.object ms) where
  opens := ⟨'\x7b', _, rfl, by decide, by decide⟩
  read rest _ := by
    rw [objectText, List.cons_append, List.append_assoc, List.singleton_append, value,
      skipSpace_cons (by decide)]
    have hpasses : Passes (storeMember (value size room)) []
        (ms.map fun m => (m.1, gap ++ text m.2)) ms := passes_storeMember hgap h hkeys
    have hmembers := members_objectText hpasses hsize rest
    simp [hmembers, startsNumber, Except.map, -List.map_map]

theorem recordMember_of_takes {f : Field ρ} {key : String} {x y : ρ} {given : List String}
    {part : List Char} (hfield : fields.find? (·.name == key) = some f)
    (hnew : given.contains key = false) (h : Takes (f.read x) part y) (rest : List Char)
    (hrest : EndsNumber rest) : recordMember size fields key (x, given) (':' :: (part ++ rest)) =
      .ok ((y, key :: given), rest) := by
  simp only [recordMember, hfield, hnew, Bool.false_eq_true, if_false, h.colon hrest]
  rfl

theorem Takes.record {start x : ρ} {given : List String} {parts : List (String × List Char)}
    (h : Passes (recordMember size fields) (start, []) parts (x, given))
    (hgiven : misses fields given = false) (hsize : (objectText l parts).length ≤ size) :
    Takes (Json.record fields start size) (objectText l parts) x where
  opens := ⟨'\x7b', _, rfl, by decide, by decide⟩
  read rest _ := by
    have hmembers := members_objectText h hsize rest
    rw [objectText, List.cons_append, List.append_assoc, List.singleton_append, Json.record,
      skipSpace_cons (by decide)]
    simp only [hmembers, hgiven, Bool.false_eq_true, if_false]

end Objects

theorem Takes.readText {α : Type} {read : Nat → List Char → Reading α} {text : String} {x : α}
    (h : Takes (read text.toList.length) text.toList x) : Json.readText read text = .ok x := by
  have hread := h.read [] endsNumber_nil
  rw [List.append_nil] at hread
  rw [Json.readText, hread]
  rfl

/-! Compact texts -/

theorem toList_compact_array (vs : List Value) :
    (Value.array vs).compact.toList = arrayText .compact (vs.map (·.compact.toList)) := by
  have hitems : ∀ vs : List Value, compactItems vs = vs.map Value.compact := by
    intro vs
    induction vs with
    | nil => rfl
    | cons v vs ih => rw [compactItems, ih, List.map_cons]
  rw [Value.compact, hitems, arrayText, Layout.spread_compact]
  simp [joined, Function.comp_def]

theorem length_compact_le_array {v : Value} {vs : List Value} (h : v ∈ vs) :
    v.compact.toList.length ≤ (Value.array vs).compact.toList.length := by
  rw [toList_compact_array]
  exact Nat.le_of_lt (length_part_lt_arrayText (List.mem_map_of_mem (f := (·.compact.toList)) h))

theorem toList_compact_object (ms : List (String × Value)) : (Value.object ms).compact.toList =
    objectText .compact (ms.map fun m => (m.1, m.2.compact.toList)) := by
  have hmembers : ∀ ms : List (String × Value), compactMembers ms =
      ms.map fun m => quote m.1 ++ ":" ++ m.2.compact := by
    intro ms
    induction ms with
    | nil => rfl
    | cons m ms ih =>
      obtain ⟨k, v⟩ := m
      rw [compactMembers, ih, List.map_cons]
  rw [Value.compact, hmembers, objectText, Layout.spread_compact]
  simp [joined, memberText, Function.comp_def]

theorem length_compact_le_object {m : String × Value} {ms : List (String × Value)} (h : m ∈ ms) :
    m.2.compact.toList.length ≤ (Value.object ms).compact.toList.length := by
  rw [toList_compact_object]
  exact Nat.le_of_lt (length_part_lt_objectText
    (List.mem_map_of_mem (f := fun m => (m.1, m.2.compact.toList)) h)).2

end GrammarFlow.Json
