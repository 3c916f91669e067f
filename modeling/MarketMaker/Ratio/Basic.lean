/-! Ratios: non-negative numbers with 18 decimal places, kept as a count of `10 ^ -18` units. They
serve as fee shares, tolerances and prices. -/

namespace MarketMaker

structure Ratio where
  atomics : Nat
  deriving DecidableEq, Repr

namespace Ratio

def places : Nat := 18

/-- The units in one, `10 ^ 18`. -/
def unit : Nat := 1000000000000000000

def zero : Ratio := ⟨0⟩

def one : Ratio := ⟨unit⟩

def add (a b : Ratio) : Ratio := ⟨a.atomics + b.atomics⟩

def isZero (a : Ratio) : Bool := a.atomics = 0

def sum (ratios : List Ratio) : Ratio := ratios.foldl add zero

instance : LE Ratio := ⟨fun a b => a.atomics ≤ b.atomics⟩

instance : LT Ratio := ⟨fun a b => a.atomics < b.atomics⟩

instance (a b : Ratio) : Decidable (a ≤ b) := inferInstanceAs (Decidable (a.atomics ≤ b.atomics))

instance (a b : Ratio) : Decidable (a < b) := inferInstanceAs (Decidable (a.atomics < b.atomics))

def min (a b : Ratio) : Ratio := if b < a then b else a

/-- The product with an amount, rounded down. -/
def mulFloor (r : Ratio) (amount : Int) : Int := (amount * r.atomics).fdiv unit

theorem le_def {a b : Ratio} : a ≤ b ↔ a.atomics ≤ b.atomics := Iff.rfl

theorem lt_def {a b : Ratio} : a < b ↔ a.atomics < b.atomics := Iff.rfl

theorem ext_iff {a b : Ratio} : a = b ↔ a.atomics = b.atomics := by
  cases a; cases b; simp

/-! ### Decimal text -/

def digits (n : Nat) : List Char := Nat.toDigits 10 n

def padLeft (width : Nat) (s : List Char) : List Char :=
  List.replicate (width - s.length) '0' ++ s

def dropTrailingZeros (s : List Char) : List Char :=
  (s.reverse.dropWhile (· = '0')).reverse

/-- The decimal text: no point when there is no fraction, and no zero at the end of a fraction. -/
def text (r : Ratio) : String :=
  let whole := digits (r.atomics / unit)
  let fraction := r.atomics % unit
  if fraction = 0 then String.ofList whole
  else String.ofList (whole ++ '.' :: dropTrailingZeros (padLeft places (digits fraction)))

def literal (r : Ratio) : String := "Ratio(\"" ++ r.text ++ "\")"

end Ratio

end MarketMaker
