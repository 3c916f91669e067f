import MarketMaker.Fault.Kind
import MarketMaker.Ratio.Basic

/-! Domain faults: one constructor for each cause, with the kind it is reported under and the text
that reports it. -/

namespace MarketMaker

inductive Fault
  /-- A fault reported in words of its own. -/
  | stated (kind : FaultKind) (text : String)
  | emptyAssets
  | assetMismatch (detail : String)
  | sameAsset
  | unExistingPool (pool : String)
  | notTwoAssets
  | emptyReserve
  | noHops
  | assetsLength (expected actual : Int)
  | feeAboveOne (share : Ratio)
  | feesReachOne (total : Ratio)
  | offerCoinRequired
  | slippageAboveOne
  | zeroBeliefPrice
  | noPendingProvision (id : String)
  | provisionPending (id : String)
  | invariantDiverged (amp : Int)
  | invariantUnsettled (iterations : Int)
  | balanceDenominator
  | balanceUnsettled (iterations : Int)
  | missingDeposit
  | invariantNotGrown
  | noShare
  | division (dividend : Int)
  | ceilingDivision (dividend : Int)
  | ratioDivision (amount : Int)
  | subtraction (a b : Int)
  | negativeRoot (a : Int)
  | askDrained (amount reserve : Int)
  | ratioSubtraction (a b : Ratio)
  | addition (a b : Int)
  | negativeAmount (a : Int)
  | amountTooLarge (a : Int)
  | slippageExceeded
  | spreadExceeded
  | initialLiquidity (minimum : Int)
  | shareToWithdraw
  | balanceDrift (expected actual : Int)
  | lockForAnother
  | positionOfAnother (position receiver : String)
  | operationDisabled (operation : String)
  deriving DecidableEq, Repr

namespace Fault

def kind : Fault → FaultKind
  | stated kind _ => kind
  | emptyAssets => .emptyAssets
  | assetMismatch _ => .assetMismatch
  | sameAsset => .sameAsset
  | unExistingPool _ => .unExistingPool
  | notTwoAssets => .invalidPoolAssetsForSingleSide
  | emptyReserve => .emptyPoolForSingleSide
  | noHops => .noSwapOperations
  | assetsLength _ _ => .invalidPoolAssetsLength
  | feeAboveOne _ | feesReachOne _ => .invalidPoolFees
  | offerCoinRequired => .invalidFunds
  | slippageAboveOne => .invalidSlippageTolerance
  | zeroBeliefPrice => .invalidBeliefPrice
  | noPendingProvision _ => .noPendingProvision
  | provisionPending _ => .provisionAlreadyPending
  | invariantDiverged _ | invariantUnsettled _ | balanceDenominator
  | balanceUnsettled _ => .converge
  | missingDeposit => .stableInvariant
  | invariantNotGrown => .stableLpMint
  | noShare => .liquidityShare
  | division _ | ceilingDivision _ | ratioDivision _ => .divisionByZero
  | subtraction _ _ | negativeRoot _ | askDrained _ _ | ratioSubtraction _ _ => .underflow
  | addition _ _ => .overflow
  | negativeAmount _ | amountTooLarge _ => .conversionOverflow
  | slippageExceeded => .maxSlippage
  | spreadExceeded => .maxSpread
  | initialLiquidity _ => .invalidInitialLiquidity
  | shareToWithdraw => .invalidLpShare
  | balanceDrift _ _ => .invalidSingleSideSwap
  | lockForAnother | positionOfAnother _ _ => .unauthorized
  | operationDisabled _ => .operationDisabled

def message : Fault → String
  | stated _ text => text
  | emptyAssets => "Trying to provide liquidity without any assets"
  | assetMismatch detail =>
    "The asset doesn't match the assets stored in the pool" ++
      if detail = "" then "" else ": " ++ detail
  | sameAsset => "The provided assets are both the same"
  | unExistingPool pool => s!"Pool {pool} does not exist"
  | notTwoAssets => "Cannot provide single-side liquidity on a pool without exactly 2 assets"
  | emptyReserve => "Cannot provide single-side liquidity when the pool is empty"
  | noHops => "Must provide swap operations to simulate"
  | assetsLength expected actual =>
    s!"Invalid pool assets length, expected {expected} got {actual}"
  | feeAboveOne share => s!"Fee share must be at most 1, got {share.text}"
  | feesReachOne total => s!"Sum of all fees must be below 1, got {total.text}"
  | offerCoinRequired => "A swap takes exactly one non-zero offer coin"
  | slippageAboveOne => "Slippage tolerance must be between 0 and 1"
  | zeroBeliefPrice => "Belief price can't be zero"
  | noPendingProvision id => s!"No single-side liquidity provision pending for {id}"
  | provisionPending id => s!"A single-side liquidity provision is already pending for {id}"
  | invariantDiverged amp => s!"Invariant iteration diverged for amp={amp}"
  | invariantUnsettled iterations =>
    s!"Stableswap invariant did not converge after {iterations} iterations"
  | balanceDenominator => "Stableswap y iteration reached a non-positive denominator"
  | balanceUnsettled iterations =>
    s!"Stableswap balance did not converge after {iterations} iterations"
  | missingDeposit => "Error computing the stableswap invariant"
  | invariantNotGrown => "Error computing the LP mint amount for the stable pool"
  | noShare => "Failed to compute the LP share with the given deposit"
  | division dividend => s!"Division by zero: {dividend} // 0"
  | ceilingDivision dividend => s!"Ceiling division by zero: {dividend}"
  | ratioDivision amount => s!"Division of {amount} by zero ratio"
  | subtraction a b => s!"Underflow: {a} - {b} = {a - b}"
  | negativeRoot a => s!"Square root of negative value: {a}"
  | askDrained amount reserve => s!"Cannot take {amount} out of an ask balance of {reserve}"
  | ratioSubtraction a b => s!"Ratio underflow: {a.text} - {b.text}"
  | addition a b => s!"Overflow: {a} + {b} exceeds Uint128"
  | negativeAmount a => s!"Negative value cannot be Uint128: {a}"
  | amountTooLarge a => s!"Value exceeds Uint128 max: {a}"
  | slippageExceeded => "Slippage tolerance exceeded"
  | spreadExceeded => "Spread limit exceeded"
  | initialLiquidity minimum => s!"Initial liquidity amount must be over {minimum}"
  | shareToWithdraw => "The amount of LP shares to withdraw is invalid"
  | balanceDrift expected actual =>
    s!"Invalid single side liquidity provision swap, expected {expected} got {actual}"
  | lockForAnother => "Cannot lock liquidity on behalf of another address"
  | positionOfAnother position receiver =>
    s!"Position {position} does not belong to {receiver}"
  | operationDisabled operation => s!"Operation disabled, {operation}"

/-- The parts of a fault that are reported beside its text. -/
def fields : Fault → List (String × String)
  | unExistingPool pool => [("pool_identifier", pool)]
  | assetsLength expected actual => [("expected", toString expected), ("actual", toString actual)]
  | noPendingProvision id | provisionPending id => [("provision_id", id)]
  | initialLiquidity minimum => [("minimum", toString minimum)]
  | balanceDrift expected actual => [("expected", toString expected), ("actual", toString actual)]
  | operationDisabled operation => [("operation", operation)]
  | _ => []

/-- The integers in the text of a fault. -/
def integers : Fault → List Int
  | assetsLength m n | balanceDrift m n | askDrained m n => [m, n]
  | invariantDiverged n | invariantUnsettled n | balanceUnsettled n | division n
  | ceilingDivision n | ratioDivision n | negativeRoot n | negativeAmount n | amountTooLarge n
  | initialLiquidity n => [n]
  | subtraction a b => [a, b, a - b]
  | addition a b => [a, b]
  | _ => []

def denomNotInPool (denom pool : String) : Fault :=
  assetMismatch s!"{denom} is not in pool {pool}"

end Fault

end MarketMaker
