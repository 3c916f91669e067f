import MarketMaker.Fault.Failure
import MarketMaker.Ratio.Basic
import MarketMaker.Table

/-! Provisions: deposits of one asset that wait for the swap of one half. Each is kept under the
identifier of the transaction that made it. -/

namespace MarketMaker

structure ProvisionRequest where
  pool : String
  slippageTolerance : Option Ratio := none
  maxSpread : Option Ratio := none
  unlockingDuration : Option Int := none
  lockIdentifier : Option String := none
  deriving DecidableEq, Repr

/-- All that is needed to finish a deposit after its swap. -/
structure Provision where
  sender : String
  receiver : String
  offerDenom : String
  askDenom : String
  /-- The manager's balance of the offered denom that the swap must leave. -/
  expectedOfferBalance : Int
  expectedAskBalance : Int
  /-- The half that is swapped. -/
  offerHalf : Int
  /-- The half that is kept for the deposit. -/
  keptOffer : Int
  expectedReturn : Int
  request : ProvisionRequest
  deriving DecidableEq, Repr

abbrev Provisions := Table String Provision

namespace Provisions

def save (t : Provisions) (id : String) (provision : Provision) : Result Provisions :=
  if t.contains id then fail (.provisionPending id) else .ok (t.put id provision)

def take (t : Provisions) (id : String) : Option Provision × Provisions := (t.get? id, t.erase id)

def stateName (t : Provisions) (id : String) : String :=
  if t.contains id then "awaiting_swap_confirmation" else "idle"

end Provisions

end MarketMaker
