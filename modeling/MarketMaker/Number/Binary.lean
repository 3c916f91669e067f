/-! Binary numbers of 53 significant bits. Quotients of integers are rounded to the nearest such
number, a half to the one with an even mantissa. -/

namespace MarketMaker

/-- A number `mantissa * 2 ^ exponent`. -/
structure Binary where
  mantissa : Int
  exponent : Int
  deriving DecidableEq, Repr

namespace Binary

def significantBits : Int := 53

def leastExponent : Int := -1074

/-- The largest finite number has an exponent of 971. -/
def greatestExponent : Int := 971

/-- The least mantissa of full length, `2 ^ 52`. -/
def leastFull : Nat := 4503599627370496

/-- Rounds a quotient to the nearest integer, a half to the even neighbour. -/
def roundHalfEven (num den : Nat) : Nat :=
  let q := num / den
  let r := num % den
  if 2 * r < den then q
  else if den < 2 * r then q + 1
  else if q % 2 = 0 then q else q + 1

/-- The quotient `num / (den * base ^ exponent)` as a pair. -/
def scaleBy (base num den : Nat) (exponent : Int) : Nat × Nat :=
  if 0 ≤ exponent then (num, den * base.pow exponent.toNat)
  else (num * base.pow (-exponent).toNat, den)

/-- The exponent for which the quotient lies between `2 ^ 52` and `2 ^ 53`, if there is one. -/
def exponentFor (num den : Nat) : Int :=
  let guess := (num.log2 : Int) - (den.log2 : Int) - (significantBits - 1)
  let scaled := scaleBy 2 num den guess
  let exponent := if scaled.1 / scaled.2 < leastFull then guess - 1 else guess
  max exponent leastExponent

/-- Keeps the mantissa below `2 ^ 53`; nothing when the exponent is too large then. -/
def bounded? (mantissa : Nat) (exponent : Int) : Option Binary :=
  let x : Binary :=
    if 2 * leastFull ≤ mantissa then ⟨leastFull, exponent + 1⟩ else ⟨mantissa, exponent⟩
  if greatestExponent < x.exponent then none else some x

/-- The number nearest to a positive quotient; nothing when it is beyond the largest one. -/
def ofQuotient? (num den : Nat) : Option Binary :=
  let exponent := exponentFor num den
  let scaled := scaleBy 2 num den exponent
  bounded? (roundHalfEven scaled.1 scaled.2) exponent

def neg (x : Binary) : Binary := { x with mantissa := -x.mantissa }

def ofScaled? (n : Int) (exponent : Int) : Option Binary :=
  let scaled := scaleBy 2 n.natAbs 1 (-exponent)
  let magnitude := if n = 0 then some ⟨0, 0⟩ else ofQuotient? scaled.1 scaled.2
  if n < 0 then magnitude.map neg else magnitude

def ofInt? (n : Int) : Option Binary := ofScaled? n 0

def add? (x y : Binary) : Option Binary :=
  let exponent := min x.exponent y.exponent
  let lift (z : Binary) : Int := z.mantissa * Nat.pow 2 (z.exponent - exponent).toNat
  ofScaled? (lift x + lift y) exponent

def whole? (x : Binary) : Option Int :=
  if 0 ≤ x.exponent then some (x.mantissa * Nat.pow 2 x.exponent.toNat)
  else if x.mantissa % Nat.pow 2 (-x.exponent).toNat = 0 then
    some (x.mantissa / Nat.pow 2 (-x.exponent).toNat)
  else none

def compareInt (n : Int) (x : Binary) : Ordering :=
  if 0 ≤ x.exponent then compare n (x.mantissa * Nat.pow 2 x.exponent.toNat)
  else compare (n * Nat.pow 2 (-x.exponent).toNat) x.mantissa

end Binary

end MarketMaker
