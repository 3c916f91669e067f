import MarketMaker.Fault.Failure
import MarketMaker.Number.Power

/-! Checked integer arithmetic. Integers are unbounded; subtraction refuses a negative result,
division refuses zero, and amounts are narrowed to 128 bits where they are stored or paid out. -/

namespace MarketMaker

/-- The largest amount of 128 bits, `2 ^ 128 - 1`. -/
def maxAmount : Int := 340282366920938463463374607431768211455

def isqrt (n : Nat) : Nat :=
  if h : n < 2 then n
  else
    let r := 2 * isqrt (n / 4)
    if (r + 1) * (r + 1) ≤ n then r + 1 else r
  termination_by n
  decreasing_by omega

namespace Checked

def sub (a b : Int) : Result Int :=
  if a - b < 0 then fail (.subtraction a b) else .ok (a - b)

def subFloor (a b : Int) : Int := max 0 (a - b)

def absDiff (a b : Int) : Int := (a - b).natAbs

/-- The quotient rounded down. -/
def div (a b : Int) : Result Int :=
  if b = 0 then fail (.division a) else .ok (a.fdiv b)

def ceilQuotient (a b : Int) : Int := -((-a).fdiv b)

def divCeil (a b : Int) : Result Int :=
  if b = 0 then fail (.ceilingDivision a) else .ok (ceilQuotient a b)

/-- The quotient `a * numerator / denominator`, rounded down once. -/
def mulDiv (a numerator denominator : Int) : Result Int := div (a * numerator) denominator

def sqrt (a : Int) : Result Int :=
  if a < 0 then fail (.negativeRoot a) else .ok (isqrt a.toNat)

def add (a b : Int) : Result Int :=
  if maxAmount < a + b then fail (.addition a b) else .ok (a + b)

/-- The value as an amount of 128 bits. -/
def narrow (a : Int) : Result Int :=
  if a < 0 then fail (.negativeAmount a)
  else if maxAmount < a then fail (.amountTooLarge a)
  else .ok a

/-- A power. A negative exponent gives a binary number, for which both integers must be in range. -/
def power (a n : Int) : Result Int :=
  if 0 ≤ n then .ok (integerPower a n.toNat)
  else if (Binary.ofInt? a).isNone ∨ (Binary.ofInt? n).isNone then
    .error (.number .integerTooLarge)
  else if a = 0 then .error (.number .zeroToNegativePower)
  else .error (.type (.integerRequired "float"))

theorem sub_eq_ok_iff {a b c : Int} : sub a b = .ok c ↔ b ≤ a ∧ c = a - b := by
  unfold sub
  split
  · simp only [fail, reduceCtorEq, false_iff]; omega
  · simp only [Except.ok.injEq]; omega

theorem div_eq_ok_iff {a b c : Int} : div a b = .ok c ↔ b ≠ 0 ∧ c = a.fdiv b := by
  unfold div
  split
  · simp_all [fail]
  · simp_all [eq_comm]

theorem power_of_nonneg {a n : Int} (h : 0 ≤ n) : power a n = .ok (a.pow n.toNat) := by
  rw [power, if_pos h, integerPower_eq_pow]

theorem add_eq_ok_iff {a b c : Int} : add a b = .ok c ↔ a + b ≤ maxAmount ∧ c = a + b := by
  unfold add
  split
  · simp only [fail, reduceCtorEq, false_iff]; omega
  · simp only [Except.ok.injEq]; omega

theorem narrow_eq_ok_iff {a b : Int} : narrow a = .ok b ↔ 0 ≤ a ∧ a ≤ maxAmount ∧ b = a := by
  unfold narrow
  split
  · simp only [fail, reduceCtorEq, false_iff]; omega
  · split
    · simp only [fail, reduceCtorEq, false_iff]; omega
    · simp only [Except.ok.injEq]; omega

end Checked

theorem isqrt_spec (n : Nat) : isqrt n * isqrt n ≤ n ∧ n < (isqrt n + 1) * (isqrt n + 1) := by
  fun_induction isqrt n with
  | case1 n h =>
    have : n = 0 ∨ n = 1 := by omega
    rcases this with rfl | rfl <;> decide
  | case2 n h r hr ih =>
    obtain ⟨ih₁, ih₂⟩ := ih
    refine ⟨hr, ?_⟩
    have : n < 4 * ((isqrt (n / 4) + 1) * (isqrt (n / 4) + 1)) := by omega
    have e : (r + 1 + 1) * (r + 1 + 1) = 4 * ((isqrt (n / 4) + 1) * (isqrt (n / 4) + 1)) := by
      simp only [r]; grind
    omega
  | case3 n h r hr ih =>
    obtain ⟨ih₁, ih₂⟩ := ih
    have e : r * r = 4 * (isqrt (n / 4) * isqrt (n / 4)) := by simp only [r]; grind
    omega

end MarketMaker
