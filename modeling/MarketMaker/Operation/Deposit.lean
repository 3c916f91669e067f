import MarketMaker.Share.Mint
import MarketMaker.Share.Slippage
import MarketMaker.State

/-! Deposits of several assets at once. The coins are with the manager already; shares are issued
for them and the pool's record grows. -/

namespace MarketMaker

/-- A deposit of coins that the pool holds, one of each denom at most. -/
structure Deposit where
  coins : List Coin
  sender : String
  receiver : String
  slippageTolerance : Option Ratio
  unlockingDuration : Option Int
  lockIdentifier : Option String
  deriving DecidableEq, Repr

namespace Deposit

/-- What the deposit brings of a denom; of two coins of one denom the later counts. -/
def amountOf (d : Deposit) (denom : String) : Int :=
  ((d.coins.reverse.find? fun c => c.denom = denom).map Coin.amount).getD 0

def amounts (d : Deposit) (pool : Pool) : List Int := pool.denoms.map d.amountOf

/-- Amounts in the units of the pool's curve: stableswap sums them up, so it needs one precision. -/
def curveAmounts (pool : Pool) (amounts : List Int) : Result (List Int) :=
  match pool.curve with
  | .constantProduct => .ok amounts
  | .stableSwap _ => Precision.normalize amounts pool.decimals

def laterShare (solver : Solver) (deposits balances : List Int) (supply : Int) :
    Curve → Result Int
  | .constantProduct => Share.constantProduct deposits balances supply
  | .stableSwap amp => do
    let after := List.zipWith (· + ·) balances deposits
    match ← Share.stableSwap? solver amp balances after supply with
    | some share => .ok share
    | none => fail .invariantNotGrown

/-- The shares of a deposit, which must be some. -/
def share (solver : Solver) (pool : Pool) (deposits balances : List Int) (supply : Int) :
    Result Int := do
  let share ←
    if supply = 0 then Share.initial solver deposits pool.curve
    else laterShare solver deposits balances supply pool.curve
  if share = 0 then fail .noShare else .ok share

/-- The shares that the first deposit leaves with the manager. -/
def lockedEffects (pool : Pool) (supply : Int) : List Effect :=
  if supply = 0 then [.mintShare pool.lpDenom Share.minimumLiquidity managerAddress] else []

/-- The position that a deposit adds to; it must be the receiver's. -/
def existingPosition (d : Deposit) (ledger : Ledger) : Result (Option Position) :=
  match d.lockIdentifier.bind ledger.position? with
  | none => .ok none
  | some p =>
    if p.receiver ≠ d.receiver then fail (.positionOfAnother p.identifier d.receiver)
    else .ok (some p)

def shareEffects (d : Deposit) (s : State) (pool : Pool) (share : Int) : Result (List Effect) :=
  match d.unlockingDuration with
  | none => .ok [.mintShare pool.lpDenom share d.receiver]
  | some duration => do
    let existing ← d.existingPosition s.ledger
    .ok
      [ .mintShare pool.lpDenom share managerAddress,
        .lock s.config.farmManager existing.isSome d.receiver ⟨pool.lpDenom, share⟩
          d.lockIdentifier duration ]

def newAssets (pool : Pool) (amounts : List Int) : Result (List Coin) :=
  (List.zip pool.assets amounts).mapM fun e =>
    (Checked.add e.1.amount e.2).map fun sum => ⟨e.1.denom, sum⟩

def attributes (d : Deposit) (pool : Pool) (share : Int) : Attributes :=
  [ ("action", "provide_liquidity"),
    ("sender", d.sender),
    ("receiver", d.receiver),
    ("pool_identifier", pool.identifier),
    ("assets", Coin.texts d.coins),
    ("added_shares", toString share) ]

def run (d : Deposit) (pool : Pool) : Action State Outcome := do
  let s ← get
  let supply := s.shareSupply pool
  let deposits ← curveAmounts pool (d.amounts pool)
  let balances ← curveAmounts pool pool.balances
  let share ← share s.config.solver pool deposits balances supply
  Share.checkSlippage d.slippageTolerance ⟨deposits, balances, share, supply⟩ pool.curve
  let issued ← d.shareEffects s pool share
  let assets ← newAssets pool (d.amounts pool)
  State.keepPool (pool.withAssets assets)
  pure ⟨pool.withAssets assets, lockedEffects pool supply ++ issued, d.attributes pool share⟩

end Deposit

end MarketMaker
