import MarketMaker.Number.Binary

/-! Powers of integers, and whether a power with a binary exponent is beyond the largest binary
number. That is decided by logarithms to base two, of 80 binary places. -/

namespace MarketMaker

/-- The power of an integer. Those of 0, 1 and -1 hang on the parity of the exponent alone. -/
def integerPower (a : Int) (n : Nat) : Int :=
  if a.natAbs ≤ 1 then a.pow (min n (2 - n % 2)) else a.pow n

namespace Binary

def logPlaces : Nat := 80

def workPlaces : Nat := 256

/-- The next binary places of the logarithm of a number between one and two: squaring doubles the
logarithm, and a square of two or more gives the place one. -/
def logFraction : Nat → Nat → Nat
  | 0, _ => 0
  | places + 1, y =>
    let square := y * y / Nat.pow 2 workPlaces
    if square < 2 * Nat.pow 2 workPlaces then logFraction places square
    else Nat.pow 2 places + logFraction places (square / 2)

/-- The logarithm to base two of a positive integer, rounded down, in units of its last place. -/
def logFixed (n : Nat) : Nat :=
  n.log2 * Nat.pow 2 logPlaces +
    logFraction logPlaces (n * Nat.pow 2 workPlaces / Nat.pow 2 n.log2)

/-- Whether a power is beyond the largest binary number, which is just below `2 ^ 1024`. -/
def powerOverflows (n : Nat) (x : Binary) : Bool :=
  if x.mantissa ≤ 0 then false
  else
    let scaled := scaleBy 2 (x.mantissa.toNat * logFixed n) 1 (-x.exponent)
    1024 * Nat.pow 2 logPlaces * scaled.2 ≤ scaled.1

end Binary

theorem pow_succ_eq (a : Int) (n : Nat) : a.pow (n + 1) = a.pow n * a := Int.pow_succ a n

/-- Where the cube is the number itself, powers repeat every second exponent. -/
theorem pow_parity {a : Int} (h : a * a * a = a) (n : Nat) : a.pow (n + 3) = a.pow (n + 1) := by
  simp only [pow_succ_eq]
  rw [Int.mul_assoc (a.pow n * a), Int.mul_assoc (a.pow n), ← Int.mul_assoc a, h]

theorem pow_min_parity {a : Int} (h : a * a * a = a) (n : Nat) :
    a.pow (min n (2 - n % 2)) = a.pow n := by
  induction n using Nat.strongRecOn with
  | ind n ih =>
    match n with
    | 0 | 1 | 2 => rfl
    | k + 3 =>
      rw [pow_parity h, ← ih (k + 1) (by omega)]
      congr 1
      omega

theorem integerPower_eq_pow (a : Int) (n : Nat) : integerPower a n = a.pow n := by
  unfold integerPower
  split
  · next h =>
    have ha : a = 0 ∨ a = 1 ∨ a = -1 := by omega
    exact pow_min_parity (by rcases ha with rfl | rfl | rfl <;> rfl) n
  · rfl

end MarketMaker
