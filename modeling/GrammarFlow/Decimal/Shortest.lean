import GrammarFlow.Decimal.Binary64

namespace GrammarFlow.Decimal

/-- The decimal `digits * 10 ^ exponent`. -/
structure Numeral where
  digits : Nat
  exponent : Int
deriving DecidableEq, Repr

def digitCount (n : Nat) : Nat := (Nat.toDigits 10 n).length

def floorLog10 (num den : Nat) : Int :=
  if den ≤ num then digitCount (num / den) - 1
  else -(digitCount ((den + num - 1) / num - 1) : Int)

/-- The positive numbers that read back as one magnitude, and the magnitude itself, in units of
`1 / den`. -/
structure Interval where
  low : Nat
  value : Nat
  high : Nat
  den : Nat
  closed : Bool
deriving DecidableEq, Repr

/-- The interval ends half-way to either neighbour; the lower neighbour of a power of two is only
half as far away. -/
def Binary64.interval (x : Binary64) : Interval :=
  let e := x.exponent - 2
  let unit := Nat.pow 2 e.toNat
  let below := if x.significand = Nat.pow 2 52 ∧ minExponent < x.exponent then 1 else 2
  { low := (4 * x.significand - below) * unit
    value := 4 * x.significand * unit
    high := (4 * x.significand + 2) * unit
    den := Nat.pow 2 (-e).toNat
    closed := x.significand % 2 == 0 }

namespace Interval

/-- Numerator and denominator units that make `n.digits * up` comparable with `i.value * down`. -/
def units (i : Interval) (k : Int) : Nat × Nat :=
  (Nat.pow 10 k.toNat * i.den, Nat.pow 10 (-k).toNat)

def holds (i : Interval) (n : Numeral) : Bool :=
  let (up, down) := i.units n.exponent
  if i.closed then i.low * down ≤ n.digits * up && n.digits * up ≤ i.high * down
  else i.low * down < n.digits * up && n.digits * up < i.high * down

/-- The nearest numeral of the interval among the multiples of `10 ^ k` on either side of the value. -/
def onGrid? (i : Interval) (k : Int) : Option Numeral :=
  let (up, down) := i.units k
  let below := i.value * down / up
  let floor : Numeral := ⟨below, k⟩
  let ceiling : Numeral := ⟨below + 1, k⟩
  match i.holds floor, i.holds ceiling with
  | true, true =>
    let near := roundDiv (i.value * down) up
    some ⟨near, k⟩
  | true, false => some floor
  | false, true => some ceiling
  | false, false => none

end Interval

/-- The coarsest decimal grid that meets the interval of `x` decides the number of digits; 17 digits
always suffice. -/
def shortest (x : Binary64) : Numeral :=
  let i := x.interval
  let top := floorLog10 i.value i.den + 1
  ((List.range 18).findSome? fun (n : Nat) => i.onGrid? (top - n)).getD
    ⟨x.significand, x.exponent⟩

end GrammarFlow.Decimal
