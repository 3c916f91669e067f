import MarketMaker.Coin.Model
import MarketMaker.Operation.Deposit
import MarketMaker.Pool.Pair
import MarketMaker.Quote.Model

/-! Deposits of one asset, in two phases. The first prices the swap of one half, keeps a provision
and asks for the swap; the second takes the provision up when the swap is confirmed, and either
finishes the deposit or pays it back. -/

namespace MarketMaker

/-- How the swap of a provision ended. -/
structure Confirmation where
  provision : String
  success : Bool
  deriving DecidableEq, Repr

namespace Provision

structure Start where
  provision : Provision
  swap : HalfSwap
  deriving DecidableEq, Repr

def otherDenom (pool : Pool) (denom : String) : String :=
  (pool.denoms.find? (· ≠ denom)).getD ""

/-- Refuses pools that do not hold some of exactly two assets. -/
def checkPool (pool : Pool) : Result Unit :=
  if pool.assets.length ≠ 2 then fail .notTwoAssets
  else if pool.balances.contains 0 then fail .emptyReserve
  else .ok ()

/-- Prices the half of a deposit and fixes what the manager must hold after its swap. -/
def start (s : State) (call : Call) (pool : Pool) (deposit : Coin) (receiver : String)
    (request : ProvisionRequest) : Result Start := do
  checkPool pool
  let ask := otherDenom pool deposit.denom
  let half : Coin := ⟨deposit.denom, deposit.amount / 2⟩
  let priced ← pool.quote s.config.solver half ask
  let q ← priced.reported
  -- The manager makes the swap with itself, so that nothing but fees leaves it.
  let expectedAsk := Checked.subFloor (s.held ask) q.charges.outgoing
  if expectedAsk = 0 then fail .spreadExceeded
  else
    .ok
      { provision :=
          { sender := call.sender
            receiver
            offerDenom := deposit.denom
            askDenom := ask
            expectedOfferBalance := s.held deposit.denom
            expectedAskBalance := expectedAsk
            offerHalf := half.amount
            keptOffer := deposit.amount - half.amount
            expectedReturn := q.returned
            request }
        swap := ⟨call.transaction, pool.identifier, half, ask, request.maxSpread⟩ }

def startAttributes (call : Call) (pool : Pool) (p : Provision) : Attributes :=
  [ ("action", "single_side_liquidity_provision"),
    ("sender", call.sender),
    ("receiver", p.receiver),
    ("pool_identifier", pool.identifier),
    ("offer_half", toString p.offerHalf) ]

def wholeOffer (p : Provision) : Coin := ⟨p.offerDenom, p.offerHalf + p.keptOffer⟩

def refund (p : Provision) (id : String) : Settlement where
  effects := [.send p.sender [p.wholeOffer]]
  attributes :=
    [ ("action", "single_side_liquidity_provision_rollback"),
      ("provision_id", id),
      ("refund", p.wholeOffer.text) ]

def checkBalance (expected actual tolerance : Int) : Result Unit :=
  if tolerance < Checked.absDiff actual expected then fail (.balanceDrift expected actual)
  else .ok ()

/-- The deposit of the half that was kept and the expected return of the other. -/
def completion (p : Provision) : Deposit where
  coins := [⟨p.offerDenom, p.keptOffer⟩, ⟨p.askDenom, p.expectedReturn⟩]
  sender := p.sender
  receiver := p.receiver
  slippageTolerance := p.request.slippageTolerance
  unlockingDuration := p.request.unlockingDuration
  lockIdentifier := p.request.lockIdentifier

/-- Finishes a deposit whose swap went through; the balances must be as expected. -/
def complete (p : Provision) (id : String) : Action State Outcome := do
  let s ← get
  checkBalance p.expectedOfferBalance (s.held p.offerDenom) s.config.driftTolerance
  checkBalance p.expectedAskBalance (s.held p.askDenom) s.config.driftTolerance
  let pool ← s.pool p.request.pool
  let outcome ← p.completion.run pool
  pure { outcome with
    settlement.attributes := outcome.settlement.attributes ++ [("provision_id", id)] }

end Provision

def Confirmation.run (c : Confirmation) : Action State Settlement := do
  -- Taken out before any check: the provision is gone however the second phase ends.
  match ← State.takeProvision c.provision with
  | none => throw (.fault (.noPendingProvision c.provision))
  | some p =>
    if c.success then
      let outcome ← p.complete c.provision
      pure outcome.settlement
    else pure (p.refund c.provision)

end MarketMaker
