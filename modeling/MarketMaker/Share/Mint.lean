import MarketMaker.Pool.Curve
import MarketMaker.Precision
import MarketMaker.StableSwap.Invariant

/-! The shares of a deposit. The first deposit sets the supply, less a minimum that is locked for
good; later ones are paid in proportion to the growth of the pool. -/

namespace MarketMaker.Share

/-- The shares that the first deposit leaves locked. -/
def minimumLiquidity : Int := 1000

/-- The shares of a deposit on the stableswap curve, or nothing when the invariant does not grow.
Balances are at a common precision. -/
def stableSwap? (solver : Solver) (amp : Int) (before after : List Int) (supply : Int) :
    Result (Option Int) := do
  let d₀ ← StableSwap.invariant solver amp before
  let d₁ ← StableSwap.invariant solver amp after
  if d₁ ≤ d₀ then .ok none
  else do
    let share ← Checked.mulDiv supply (d₁ - d₀) d₀
    let share ← Checked.narrow share
    .ok (some share)

def smallest? : List Int → Option Int
  | [] => none
  | x :: rest => some (rest.foldl min x)

/-- The shares of a deposit on the constant product curve: the least claim that one of its assets
makes. -/
def constantProduct (deposits balances : List Int) (supply : Int) : Result Int :=
  if deposits.length ≠ balances.length then
    fail (.assetsLength balances.length deposits.length)
  else do
    let shares ← (List.zip deposits balances).mapM fun e => Checked.mulDiv e.1 supply e.2
    match smallest? shares with
    | none => .error (.value .noSmallest)
    | some share => Checked.narrow share

/-- The supply that a first deposit makes, before the minimum is taken off. -/
def firstSupply (solver : Solver) (deposits : List Int) : Curve → Result Int
  | .constantProduct =>
    match deposits with
    | [x, y] => Checked.sqrt (x * y)
    | _ => fail (.assetsLength 2 deposits.length)
  | .stableSwap amp =>
    if deposits.contains 0 then fail .missingDeposit else StableSwap.invariant solver amp deposits

def initial (solver : Solver) (deposits : List Int) (curve : Curve) : Result Int := do
  let supply ← firstSupply solver deposits curve
  if supply ≤ minimumLiquidity then fail (.initialLiquidity minimumLiquidity)
  else Checked.narrow (supply - minimumLiquidity)

end MarketMaker.Share
