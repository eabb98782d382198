import GrammarFlow.Json.Numeral

namespace GrammarFlow.Json

def isSpace (c : Char) : Bool := c == ' ' || c == '\n' || c == '\t' || c == '\r'

def skipSpace (s : List Char) : List Char := s.dropWhile isSpace

/-- The rest of a keyword whose first letter has been seen. -/
def keyword : List Char → List Char → Except Fault (List Char)
  | [], s => .ok s
  | _ :: _, [] => .error .truncated
  | k :: ks, c :: s => if c = k then keyword ks s else .error .malformed

def colon (s : List Char) : Except Fault (List Char) :=
  match skipSpace s with
  | [] => .error .truncated
  | ':' :: s => .ok s
  | _ => .error .malformed

def hexValue? (c : Char) : Option Nat :=
  if '0' ≤ c ∧ c ≤ '9' then some (c.toNat - 0x30)
  else if 'a' ≤ c ∧ c ≤ 'f' then some (c.toNat - 0x57)
  else if 'A' ≤ c ∧ c ≤ 'F' then some (c.toNat - 0x37)
  else none

def utf8Length (s : List Char) : Nat := (s.map Char.utf8Size).foldr (· + ·) 0

/-- Four hexadecimal digits. A text is cut short here if fewer than four bytes are left. -/
def codeUnit : List Char → Reading Nat
  | a :: b :: c :: d :: s =>
    match hexValue? a, hexValue? b, hexValue? c, hexValue? d with
    | some a, some b, some c, some d => .ok (((a * 16 + b) * 16 + c) * 16 + d, s)
    | _, _, _, _ => .error .malformed
  | s => if utf8Length s < 4 then .error .truncated else .error .malformed

def isHighSurrogate (n : Nat) : Bool := 0xD800 ≤ n && n ≤ 0xDBFF

def isLowSurrogate (n : Nat) : Bool := 0xDC00 ≤ n && n ≤ 0xDFFF

/-- The character that a code unit writes: alone, or as a high surrogate with the low surrogate
that has to follow it. -/
def unicodeEscape (s : List Char) : Except Fault (Char × List Char) := do
  let (n, s) ← codeUnit s
  if isLowSurrogate n then .error .malformed
  else if isHighSurrogate n then
    match s with
    | [] | ['\\'] => .error .truncated
    | '\\' :: 'u' :: s =>
      let (m, s) ← codeUnit s
      if isLowSurrogate m then
        .ok (Char.ofNat (0x10000 + (n - 0xD800) * 0x400 + (m - 0xDC00)), s)
      else .error .malformed
    | _ => .error .malformed
  else .ok (Char.ofNat n, s)

/-- The character of a code unit, of which only the digits are checked. -/
def looseUnicodeEscape (s : List Char) : Reading Char :=
  (codeUnit s).map fun (n, s) => (Char.ofNat n, s)

def letterEscape? (c : Char) : Option Char :=
  if c = '"' ∨ c = '\\' ∨ c = '/' then some c
  else if c = 'b' then some '\x08'
  else if c = 'f' then some '\x0c'
  else if c = 'n' then some '\n'
  else if c = 'r' then some '\r'
  else if c = 't' then some '\t'
  else none

def readEscape (unicode : List Char → Reading Char) : List Char → Reading Char
  | [] => .error .truncated
  | c :: s =>
    match letterEscape? c with
    | some d => .ok (d, s)
    | none => if c = 'u' then unicode s else .error .malformed

/-- The rest of a string, of which `seen` holds the characters so far, the last one first. -/
def stringRest (unicode : List Char → Reading Char) :
    Nat → List Char → List Char → Reading String
  | _, _, [] => .error .truncated
  | 0, _, _ :: _ => .error .truncated
  | n + 1, seen, c :: s =>
    if c = '"' then .ok (String.ofList seen.reverse, s)
    else if c = '\\' then
      match readEscape unicode s with
      | .error fault => .error fault
      | .ok (d, s) => stringRest unicode n (d :: seen) s
    else if c.toNat < 0x20 then .error .malformed
    else stringRest unicode n (c :: seen) s

def stringTail (size : Nat) (s : List Char) : Reading String :=
  stringRest unicodeEscape size [] s

def startsNumber (c : Char) : Bool := c == '-' || c.isDigit

def numberValue (s : List Char) : Except Fault (Number × List Char) := do
  let (literal, s) ← Literal.read .truncated s
  let number ← literal.value
  return (number, s)

/-- Where a container goes on: with an entry, or after its closing bracket. -/
inductive Next where
  | entry (s : List Char)
  | closed (s : List Char)

/-- Finds the next item of an array; every item but the first follows a comma. -/
def nextItem (first : Bool) (s : List Char) : Except Fault Next :=
  match skipSpace s with
  | [] => .error .truncated
  | ']' :: s => .ok (.closed s)
  | c :: s =>
    if first then .ok (.entry (c :: s))
    else if c = ',' then
      match skipSpace s with
      | [] => .error .truncated
      | ']' :: _ => .error .malformed
      | s => .ok (.entry s)
    else .error .malformed

def nextKey (first : Bool) (s : List Char) : Except Fault Next :=
  match skipSpace s with
  | [] => .error .truncated
  | '}' :: s => .ok (.closed s)
  | c :: s =>
    if first then if c = '"' then .ok (.entry s) else .error .malformed
    else if c = ',' then
      match skipSpace s with
      | [] => .error .truncated
      | '"' :: s => .ok (.entry s)
      | _ => .error .malformed
    else .error .malformed

/-- The items of an array whose bracket has been seen, each read by `item`; `seen` holds the items so
far, the last one first. -/
def items {α : Type} (item : List Char → Reading α) :
    Nat → List α → List Char → Reading (List α)
  | 0, _, _ => .error .truncated
  | n + 1, seen, s =>
    match nextItem seen.isEmpty s with
    | .error fault => .error fault
    | .ok (.closed s) => .ok (seen.reverse, s)
    | .ok (.entry s) =>
      match item s with
      | .error fault => .error fault
      | .ok (x, s) => items item n (x :: seen) s

/-- The members of an object whose brace has been seen. `member` gets a key, the state so far and the
text after the key. -/
def members {σ : Type} (size : Nat) (member : String → σ → List Char → Reading σ) :
    Nat → Bool → σ → List Char → Reading σ
  | 0, _, _, _ => .error .truncated
  | n + 1, first, state, s =>
    match nextKey first s with
    | .error fault => .error fault
    | .ok (.closed s) => .ok (state, s)
    | .ok (.entry s) =>
      match stringTail size s with
      | .error fault => .error fault
      | .ok (key, s) =>
        match member key state s with
        | .error fault => .error fault
        | .ok (state, s) => members size member n false state s

def storeMember (read : List Char → Reading Value) (key : String) (state : List (String × Value))
    (s : List Char) : Reading (List (String × Value)) :=
  match colon s with
  | .error fault => .error fault
  | .ok s => (read s).map fun (v, s) => (insertMember key v state, s)

def value (size : Nat) (room : Nat) (s : List Char) : Reading Value :=
  match skipSpace s with
  | [] => .error .truncated
  | c :: s =>
    if c = 'n' then (keyword ['u', 'l', 'l'] s).map (.null, ·)
    else if c = 't' then (keyword ['r', 'u', 'e'] s).map (.bool true, ·)
    else if c = 'f' then (keyword ['a', 'l', 's', 'e'] s).map (.bool false, ·)
    else if c = '"' then (stringTail size s).map fun (text, s) => (.string text, s)
    else if startsNumber c then (numberValue (c :: s)).map fun (n, s) => (.number n, s)
    else if c = '[' then
      match room with
      | 0 => .error .malformed
      | room + 1 =>
        (items (value size room) size [] s).map fun (values, s) => (.array values, s)
    else if c = '{' then
      match room with
      | 0 => .error .malformed
      | room + 1 =>
        (members size (storeMember (value size room)) size true [] s).map
          fun (state, s) => (.object state, s)
    else .error .malformed

/-! Values that are passed over -/

def skipString (size : Nat) (s : List Char) : Except Fault (List Char) :=
  (stringRest looseUnicodeEscape size [] s).map (·.2)

def skipKey (size : Nat) (s : List Char) : Except Fault (List Char) :=
  match skipSpace s with
  | [] => .error .truncated
  | '"' :: s => skipString size s >>= colon
  | _ => .error .malformed

def skipScalar (size : Nat) : List Char → Except Fault (List Char)
  | [] => .error .truncated
  | c :: s =>
    if c = 'n' then keyword ['u', 'l', 'l'] s
    else if c = 't' then keyword ['r', 'u', 'e'] s
    else if c = 'f' then keyword ['a', 'l', 's', 'e'] s
    else if c = '"' then skipString size s
    else if startsNumber c then (Literal.read .malformed (c :: s)).map (·.2)
    else .error .malformed

inductive Container where
  | array
  | object
deriving DecidableEq, Repr

/-- Passes over a value (`before`) or over what follows one, up to the end of the outermost of the
open containers. -/
def skipFrom (size : Nat) : Nat → List Container → Bool → List Char → Except Fault (List Char)
  | 0, _, _, _ => .error .truncated
  | n + 1, opened, true, s =>
    match skipSpace s with
    | [] => .error .truncated
    | '[' :: s =>
      match skipSpace s with
      | ']' :: s => skipFrom size n opened false s
      | s => skipFrom size n (.array :: opened) true s
    | '{' :: s =>
      match skipSpace s with
      | '}' :: s => skipFrom size n opened false s
      | s =>
        match skipKey size s with
        | .error fault => .error fault
        | .ok s => skipFrom size n (.object :: opened) true s
    | s =>
      match skipScalar size s with
      | .error fault => .error fault
      | .ok s => skipFrom size n opened false s
  | _ + 1, [], false, s => .ok s
  | n + 1, .array :: opened, false, s =>
    match skipSpace s with
    | [] => .error .truncated
    | ']' :: s => skipFrom size n opened false s
    | ',' :: s => skipFrom size n (.array :: opened) true s
    | _ => .error .malformed
  | n + 1, .object :: opened, false, s =>
    match skipSpace s with
    | [] => .error .truncated
    | '}' :: s => skipFrom size n opened false s
    | ',' :: s =>
      match skipKey size s with
      | .error fault => .error fault
      | .ok s => skipFrom size n (.object :: opened) true s
    | _ => .error .malformed

/-- Passes over a value of any depth, whose numbers and surrogates are not checked. -/
def skipValue (size : Nat) (s : List Char) : Except Fault (List Char) :=
  skipFrom size (2 * size + 2) [] true s

/-! Values of a given shape -/

/-- The fault of a value that has another shape than the one asked for: a scalar is read first. -/
def wrongShape (size : Nat) : List Char → Fault
  | [] => .truncated
  | c :: s =>
    let scalar {α : Type} : Except Fault α → Fault
      | .error fault => fault
      | .ok _ => .mismatch
    if c = 'n' then scalar (keyword ['u', 'l', 'l'] s)
    else if c = 't' then scalar (keyword ['r', 'u', 'e'] s)
    else if c = 'f' then scalar (keyword ['a', 'l', 's', 'e'] s)
    else if c = '"' then scalar (stringTail size s)
    else if startsNumber c then scalar (numberValue (c :: s))
    else if c = '[' ∨ c = '{' then .mismatch
    else .malformed

def string (size : Nat) (s : List Char) : Reading String :=
  match skipSpace s with
  | '"' :: s => stringTail size s
  | s => .error (wrongShape size s)

def optional {α : Type} (present : List Char → Reading α) (s : List Char) : Reading (Option α) :=
  match skipSpace s with
  | 'n' :: s => (keyword ['u', 'l', 'l'] s).map (none, ·)
  | s => (present s).map fun (x, s) => (some x, s)

/-- An integer without a sign, of at most 64 bits. -/
def natural (size : Nat) (s : List Char) : Reading Nat :=
  match skipSpace s with
  | [] => .error .truncated
  | c :: s =>
    if startsNumber c then
      match numberValue (c :: s) with
      | .error fault => .error fault
      | .ok (.integer (.ofNat n), s) => .ok (n, s)
      | .ok _ => .error .mismatch
    else .error (wrongShape size (c :: s))

def arrayOf {α : Type} (size : Nat) (item : List Char → Reading α) (s : List Char) :
    Reading (List α) :=
  match skipSpace s with
  | '[' :: s => items item size [] s
  | s => .error (wrongShape size s)

def objectMembers (size room : Nat) (s : List Char) : Reading (List (String × Value)) :=
  match skipSpace s with
  | '{' :: s => members size (storeMember (value size room)) size true [] s
  | s => .error (wrongShape size s)

/-- Reads a whole text, after which only space may follow. -/
def readText {α : Type} (read : Nat → List Char → Reading α) (text : String) : Except Fault α :=
  match read text.toList.length text.toList with
  | .error fault => .error fault
  | .ok (x, s) => if (skipSpace s).isEmpty then .ok x else .error .malformed

end GrammarFlow.Json
