import MarketMaker.Checked.Basic
import MarketMaker.Number.Sum
import MarketMaker.Pool.Curve
import MarketMaker.Ratio.Arithmetic

/-! The slippage guard of a deposit. Ratios are compared by cross multiplication, without rounding.
-/

namespace MarketMaker.Share

/-- A deposit in the units of its curve, and the state it is paid in. -/
structure DepositTerms where
  deposits : List Int
  balances : List Int
  share : Int
  supply : Int
  deriving DecidableEq, Repr

/-- The part that a tolerance keeps, if there is anything to guard: a tolerance was given and the
pool has shares. -/
def keep? (tolerance : Option Ratio) (supply : Int) : Result (Option Ratio) :=
  match tolerance with
  | none => .ok none
  | some t =>
    if supply = 0 then .ok none
    else if Ratio.one < t then fail .slippageAboveOne
    else t.complement.map some

def CrossRatioExceeded (keep : Ratio) (d₀ d₁ p₀ p₁ : Int) : Prop :=
  p₀ * d₁ * Ratio.unit < d₀ * keep.atomics * p₁ ∨ p₁ * d₀ * Ratio.unit < d₁ * keep.atomics * p₀

instance (keep : Ratio) (d₀ d₁ p₀ p₁ : Int) : Decidable (CrossRatioExceeded keep d₀ d₁ p₀ p₁) :=
  inferInstanceAs (Decidable (_ ∨ _))

/-- What the pool keeps per share is more than what the deposit brings per share. -/
def ValueExceeded (keep : Ratio) (terms : DepositTerms) : Prop :=
  sumOf terms.deposits * terms.supply * Ratio.unit <
    sumOf terms.balances * keep.atomics * terms.share

instance (keep : Ratio) (terms : DepositTerms) : Decidable (ValueExceeded keep terms) :=
  inferInstanceAs (Decidable (_ < _))

def checkKept (keep : Ratio) (terms : DepositTerms) : Curve → Result Unit
  | .constantProduct =>
    match terms.deposits, terms.balances with
    | [d₀, d₁], [p₀, p₁] =>
      if CrossRatioExceeded keep d₀ d₁ p₀ p₁ then fail .slippageExceeded else .ok ()
    | _, _ => fail (.assetsLength 2 terms.deposits.length)
  | .stableSwap _ => if ValueExceeded keep terms then fail .slippageExceeded else .ok ()

def checkSlippage (tolerance : Option Ratio) (terms : DepositTerms) (curve : Curve) :
    Result Unit := do
  match ← keep? tolerance terms.supply with
  | none => .ok ()
  | some keep => checkKept keep terms curve

end MarketMaker.Share
