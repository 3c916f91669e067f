import MarketMaker.Coin.Basic
import MarketMaker.Pool.Curve
import MarketMaker.Pool.Fees

/-! Pools: balances of two to four assets, the curve they trade on, the fees and the denom of the
pool's shares. -/

namespace MarketMaker

structure Pool where
  identifier : String
  assets : List Coin
  curve : Curve
  lpDenom : String
  fees : FeeSchedule
  decimals : List Int
  deriving DecidableEq, Repr

namespace Pool

def maxIdentifierLength : Nat := 64

def maxAssets : Nat := 4

def maxDecimals : Int := 38

/-- Letters, digits, points and slashes, at least one and at most 64. -/
def isIdentifierChar (c : Char) : Bool :=
  let n := c.toNat
  (48 ≤ n && n ≤ 57) || (65 ≤ n && n ≤ 90) || (97 ≤ n && n ≤ 122) || n == 46 || n == 47

def denoms (p : Pool) : List String := p.assets.map Coin.denom

def balances (p : Pool) : List Int := p.assets.map Coin.amount

def assetTexts (p : Pool) : List String := p.assets.map Coin.text

/-- What every stored pool satisfies. -/
structure Valid (p : Pool) : Prop where
  identifier_ne : p.identifier ≠ ""
  identifier_length : p.identifier.length ≤ maxIdentifierLength
  identifier_chars : p.identifier.toList.all isIdentifierChar = true
  asset_count : 2 ≤ p.assets.length ∧ p.assets.length ≤ maxAssets
  assets_valid : ∀ c ∈ p.assets, c.Valid
  denoms_nodup : p.denoms.Nodup
  decimals_length : p.decimals.length = p.assets.length
  decimals_range : ∀ d ∈ p.decimals, 0 ≤ d ∧ d ≤ maxDecimals
  curve_valid : p.curve.Valid
  lpDenom_ne : p.lpDenom ≠ ""
  fees_valid : p.fees.Valid

def holds (p : Pool) (denom : String) : Bool := p.denoms.contains denom

def indexOf (p : Pool) (denom : String) : Result Nat :=
  match p.denoms.findIdx? (· = denom) with
  | some i => .ok i
  | none => fail (.denomNotInPool denom p.identifier)

def withAssets (p : Pool) (assets : List Coin) : Pool := { p with assets }

end Pool

end MarketMaker
