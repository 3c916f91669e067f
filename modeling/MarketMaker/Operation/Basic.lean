import MarketMaker.Coin.Aggregate
import MarketMaker.Operation.SingleSided
import MarketMaker.Operation.Swap
import MarketMaker.Operation.Withdrawal

namespace MarketMaker

structure DepositOrder where
  pool : String
  slippageTolerance : Option Ratio := none
  maxSpread : Option Ratio := none
  receiver : Option String := none
  unlockingDuration : Option Int := none
  lockIdentifier : Option String := none
  deriving DecidableEq, Repr

namespace DepositOrder

/-- The coins of a call, one of each denom, which the pool must hold. -/
def coinsOf (call : Call) (pool : Pool) : Result (List Coin) := do
  let coins ← Coin.aggregate call.funds
  let coins := coins.filter fun c => 0 < c.amount
  if coins = [] then fail .emptyAssets
  else
    match coins.find? fun c => !pool.holds c.denom with
    | some c => fail (.denomNotInPool c.denom pool.identifier)
    | none => .ok coins

/-- Shares can be locked for the sender only. -/
def checkLock (order : DepositOrder) (call : Call) : Result Unit :=
  if order.unlockingDuration.isSome && call.receiver order.receiver ≠ call.sender then
    fail .lockForAnother
  else .ok ()

def request (order : DepositOrder) : ProvisionRequest where
  pool := order.pool
  slippageTolerance := order.slippageTolerance
  maxSpread := order.maxSpread
  unlockingDuration := order.unlockingDuration
  lockIdentifier := order.lockIdentifier

def deposit (order : DepositOrder) (call : Call) (coins : List Coin) : Deposit where
  coins
  sender := call.sender
  receiver := call.receiver order.receiver
  slippageTolerance := order.slippageTolerance
  unlockingDuration := order.unlockingDuration
  lockIdentifier := order.lockIdentifier

def begin (order : DepositOrder) (call : Call) (pool : Pool) (coin : Coin) :
    Action State Response := do
  let s ← get
  let start ← Provision.start s call pool coin (call.receiver order.receiver) order.request
  State.keepProvision call.transaction start.provision
  pure ⟨[.halfSwap start.swap], Provision.startAttributes call pool start.provision⟩

/-- One coin starts a deposit of one asset; several are deposited at once. -/
def run (order : DepositOrder) (call : Call) : Action State Response := do
  let s ← get
  checkEnabled s.config.depositsEnabled "provide_liquidity"
  let pool ← s.pool order.pool
  let coins ← coinsOf call pool
  order.checkLock call
  match coins with
  | [coin] => order.begin call pool coin
  | _ =>
    let outcome ← (order.deposit call coins).run pool
    pure outcome.settlement.toResponse

end DepositOrder

inductive Operation
  | deposit (order : DepositOrder)
  | withdraw (pool : String)
  | swap (order : SwapOrder)
  deriving DecidableEq, Repr

namespace Operation

def run (operation : Operation) (call : Call) : Action State Response :=
  match operation with
  | deposit order => order.run call
  | withdraw pool => do
    let outcome ← Withdrawal.run pool call
    pure outcome.settlement.toResponse
  | swap order => do
    let outcome ← order.run call
    pure outcome.settlement.toResponse

end Operation

end MarketMaker
