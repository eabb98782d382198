import GrammarFlow.Json.Value

namespace GrammarFlow.Json

/-- Why a text is not the JSON that was asked for: it ends too early, it is not JSON, or it is JSON
of another shape. -/
inductive Fault where
  | truncated
  | malformed
  | mismatch
deriving DecidableEq, Repr

def Fault.message : Fault → String
  | .truncated => "unexpected end of the text"
  | .malformed => "not a JSON text"
  | .mismatch => "a value of another shape was expected"

/-- What reading the front of a text gives: a value with the rest of the text, or a fault. -/
abbrev Reading (α : Type) := Except Fault (α × List Char)

structure Literal where
  negative : Bool
  whole : List Char
  fraction : Option (List Char)
  exponent : Option (Bool × List Char)
deriving DecidableEq, Repr

namespace Literal

def startsWithDigit : List Char → Bool
  | [] => false
  | c :: _ => c.isDigit

/-- One digit or more; `atEnd` is the fault of a text that stops where the first one should be. -/
def someDigits (atEnd : Fault) (s : List Char) : Reading (List Char) :=
  if startsWithDigit s then .ok (s.takeWhile Char.isDigit, s.dropWhile Char.isDigit)
  else if s.isEmpty then .error atEnd
  else .error .malformed

/-- A whole part has no leading zero, other than being one zero. -/
def readWhole (atEnd : Fault) : List Char → Reading (List Char)
  | '0' :: s => if startsWithDigit s then .error .malformed else .ok (['0'], s)
  | s => someDigits atEnd s

def readFraction (atEnd : Fault) : List Char → Reading (Option (List Char))
  | '.' :: s => (someDigits atEnd s).map fun (digits, s) => (some digits, s)
  | s => .ok (none, s)

def readSign : List Char → Bool × List Char
  | '-' :: s => (true, s)
  | '+' :: s => (false, s)
  | s => (false, s)

def readExponent (atEnd : Fault) : List Char → Reading (Option (Bool × List Char))
  | c :: s =>
    if c = 'e' ∨ c = 'E' then
      let (negative, s) := readSign s
      (someDigits atEnd s).map fun (digits, s) => (some (negative, digits), s)
    else .ok (none, c :: s)
  | [] => .ok (none, [])

/-- A number literal at the front of a text, where a minus sign or a digit stands. -/
def read (atEnd : Fault) (s : List Char) : Except Fault (Literal × List Char) := do
  let (negative, s) := match s with
    | '-' :: s => (true, s)
    | s => (false, s)
  let (whole, s) ← readWhole atEnd s
  let (fraction, s) ← readFraction atEnd s
  let (exponent, s) ← readExponent atEnd s
  return (⟨negative, whole, fraction, exponent⟩, s)

def digitValue (c : Char) : Nat := c.toNat - '0'.toNat

def natOf (digits : List Char) : Nat := digits.foldl (fun n c => 10 * n + digitValue c) 0

def maxSignificand : Nat := Nat.pow 2 64 - 1

/-- Appends decimal digits to a significand as long as it fits 64 bits, and returns the digits that
are left. -/
def absorb (m : Nat) : List Char → Nat × List Char
  | [] => (m, [])
  | c :: digits =>
    let next := 10 * m + digitValue c
    if next ≤ maxSignificand then absorb next digits else (m, c :: digits)

/-- An integer literal that fits 64 bits, with a sign or without, is that integer, and any other
literal a binary magnitude. Zero with a minus sign is the negative magnitude zero. A significand
keeps the digits of the whole part, and then of the fraction, that fit 64 bits. -/
def value (l : Literal) : Except Fault Number :=
  let (whole, wholeLeft) := absorb 0 l.whole
  if l.fraction.isNone ∧ l.exponent.isNone ∧ wholeLeft.isEmpty ∧
      (l.negative → 0 < whole ∧ whole ≤ Nat.pow 2 63) then
    .ok (.integer (if l.negative then -whole else whole))
  else
    let fraction := l.fraction.getD []
    let (significand, fractionLeft) := absorb whole fraction
    let shift : Int := (wholeLeft.length : Int) - (fraction.length - fractionLeft.length : Nat)
    let exponent : Int := match l.exponent with
      | none => 0
      | some (true, digits) => -(natOf digits : Int)
      | some (false, digits) => natOf digits
    match (Decimal.Binary64.ofNat significand).scaleTen (shift + exponent) with
    | some magnitude => .ok (.binary l.negative magnitude)
    | none => .error .malformed

end Literal

end GrammarFlow.Json
