namespace MarketMaker

inductive Curve
  | constantProduct
  | stableSwap (amp : Int)
  deriving DecidableEq, Repr

namespace Curve

def constantProductKind : String := "constant_product"

def stableSwapKind : String := "stable_swap"

def kind : Curve → String
  | constantProduct => constantProductKind
  | stableSwap _ => stableSwapKind

def maxAmp : Int := 1000000

def Valid : Curve → Prop
  | constantProduct => True
  | stableSwap amp => 1 ≤ amp ∧ amp ≤ maxAmp

instance : (curve : Curve) → Decidable curve.Valid
  | constantProduct => isTrue trivial
  | stableSwap amp => inferInstanceAs (Decidable (1 ≤ amp ∧ amp ≤ maxAmp))

end Curve

end MarketMaker
