import MarketMaker.Config
import MarketMaker.Ledger.Basic
import MarketMaker.Message
import MarketMaker.Provision
import MarketMaker.Registry

namespace MarketMaker

/-- The address that holds the assets of all pools. -/
def managerAddress : String := "pool_manager"

structure State where
  config : Config
  registry : Registry
  provisions : Provisions
  ledger : Ledger

namespace State

def empty (config : Config) : State := ⟨config, .empty, .empty, .empty⟩

def pool (s : State) (identifier : String) : Result Pool := s.registry.get identifier

def shareSupply (s : State) (pool : Pool) : Int := s.ledger.supply pool.lpDenom

/-- What the manager holds of a denom. -/
def held (s : State) (denom : String) : Int := s.ledger.balance managerAddress denom

def savePool (s : State) (pool : Pool) : State := { s with registry := s.registry.save pool }

def keepPool (pool : Pool) : Action State Unit := modify fun s => s.savePool pool

/-- Keeps a provision under an identifier that has none. -/
def keepProvision (id : String) (provision : Provision) : Action State Unit := do
  let s ← get
  let provisions ← s.provisions.save id provision
  set { s with provisions }

def takeProvision (id : String) : Action State (Option Provision) := do
  let s ← get
  let (provision, provisions) := s.provisions.take id
  set { s with provisions }
  pure provision

end State

def checkEnabled (enabled : Bool) (operation : String) : Result Unit :=
  if enabled then .ok () else fail (.operationDisabled operation)

structure Call where
  sender : String
  funds : List Coin
  transaction : String
  deriving DecidableEq, Repr

def Call.receiver (call : Call) (given : Option String) : String :=
  (given.filter (· ≠ "")).getD call.sender

/-- The record of its pool that an operation has kept, and what settles it. -/
structure Outcome where
  pool : Pool
  settlement : Settlement
  deriving DecidableEq, Repr

end MarketMaker
