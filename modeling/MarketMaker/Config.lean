import MarketMaker.Fault.Value
import MarketMaker.StableSwap.Invariant

namespace MarketMaker

structure Config where
  feeCollector : String := "fee_collector"
  farmManager : String := "farm_manager"
  depositsEnabled : Bool := true
  withdrawalsEnabled : Bool := true
  swapsEnabled : Bool := true
  /-- The largest difference between the balances that a provision expects and finds. -/
  driftTolerance : Int := 0
  solver : Solver := {}
  poolsFile : Option String := none
  deriving DecidableEq, Repr

abbrev Environment := List (String × String)

namespace Environment

/-- The last value given to a variable. -/
def get? (env : Environment) (name : String) : Option String :=
  (env.reverse.find? fun e => e.1 = name).map Prod.snd

def onWords : List String := ["true", "1", "yes"]

def flag (env : Environment) (name : String) : Bool :=
  match env.get? name with
  | none => true
  | some value => onWords.contains (value.map Char.toLower)

def integer (env : Environment) (name : String) (default : Int) : Except ValueFault Int :=
  match env.get? name with
  | none => .ok default
  | some value => (Text.readInteger value.toList).mapError (.ofNumeral value)

def text? (env : Environment) (name : String) : Option String :=
  (env.get? name).filter (· ≠ "")

end Environment

namespace Config

def ofEnvironment (env : Environment) : Except ValueFault Config := do
  let driftTolerance ← env.integer "POOL_MANAGER_PROVISION_DRIFT_TOLERANCE" 0
  let maxIterations ← env.integer "POOL_MANAGER_SOLVER_MAX_ITERATIONS" 64
  let tolerance ← env.integer "POOL_MANAGER_SOLVER_TOLERANCE" 1
  .ok
    { feeCollector := (env.get? "POOL_MANAGER_FEE_COLLECTOR_ADDR").getD "fee_collector"
      farmManager := (env.get? "POOL_MANAGER_FARM_MANAGER_ADDR").getD "farm_manager"
      depositsEnabled := env.flag "POOL_MANAGER_DEPOSITS_ENABLED"
      withdrawalsEnabled := env.flag "POOL_MANAGER_WITHDRAWALS_ENABLED"
      swapsEnabled := env.flag "POOL_MANAGER_SWAPS_ENABLED"
      driftTolerance
      solver := ⟨maxIterations, tolerance⟩
      poolsFile := env.text? "POOL_MANAGER_POOLS_FILE" }

end Config

end MarketMaker
