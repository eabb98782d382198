namespace GrammarFlow.Decimal

/-- The quotient rounded to the nearest integer; a tie goes to the even one. -/
def roundDiv (num den : Nat) : Nat :=
  let q := num / den
  let r := num % den
  if 2 * r < den ∨ (2 * r = den ∧ q % 2 = 0) then q else q + 1

def floorLog2 (num den : Nat) : Int :=
  let k : Int := (num.log2 : Int) - den.log2
  if num * Nat.pow 2 (-k).toNat < den * Nat.pow 2 k.toNat then k - 1 else k

/-- The magnitude `significand * 2 ^ exponent`. -/
structure Binary64 where
  significand : Nat
  exponent : Int
deriving DecidableEq, Repr

namespace Binary64

def minExponent : Int := -1074

def maxExponent : Int := 971

def zero : Binary64 := ⟨0, minExponent⟩

def isZero (x : Binary64) : Bool := x.significand == 0

/-- A rounding result beyond the largest magnitude of the format. -/
def isInfinite (x : Binary64) : Bool := maxExponent < x.exponent

def ofRatio (num den : Nat) : Binary64 :=
  if num = 0 then zero
  else
    let e := max (floorLog2 num den - 52) minExponent
    let m := roundDiv (num * Nat.pow 2 (-e).toNat) (den * Nat.pow 2 e.toNat)
    if m = Nat.pow 2 53 then ⟨Nat.pow 2 52, e + 1⟩ else ⟨m, e⟩

def ofNat (n : Nat) : Binary64 := ofRatio n 1

def powTen (k : Nat) : Binary64 := ofNat (Nat.pow 10 k)

def mul (x y : Binary64) : Binary64 :=
  let e := x.exponent + y.exponent
  ofRatio (x.significand * y.significand * Nat.pow 2 e.toNat) (Nat.pow 2 (-e).toNat)

def div (x y : Binary64) : Binary64 :=
  let e := x.exponent - y.exponent
  ofRatio (x.significand * Nat.pow 2 e.toNat) (y.significand * Nat.pow 2 (-e).toNat)

/-- `x / 10 ^ n`. Only powers up to `10 ^ 308` have a magnitude, so a larger one is divided away in
steps of 308; four of them leave nothing of any magnitude. -/
def dropTen (x : Binary64) (n : Nat) : Binary64 :=
  let steps := (n - 1) / 308
  (Nat.repeat (·.div (powTen 308)) (min steps 4) x).div (powTen (n - 308 * steps))

/-- `x * 10 ^ n`, unless it is beyond the format. -/
def raiseTen (x : Binary64) (n : Nat) : Option Binary64 :=
  if x.isZero then some x
  else if 308 < n then none
  else
    let y := x.mul (powTen n)
    if y.isInfinite then none else some y

def scaleTen (x : Binary64) (k : Int) : Option Binary64 :=
  if k < 0 then some (x.dropTen k.natAbs) else x.raiseTen k.natAbs

end Binary64

end GrammarFlow.Decimal
