import MarketMaker.Fault.Failure
import MarketMaker.Json.Basic

namespace MarketMaker.Fault

def argumentText : Json → String
  | .text s => s
  | .int n => toString n
  | _ => ""

/-- An argument as it stands in a list of several. -/
def argumentLiteral : Json → String
  | .text s => Text.quoted s
  | v => argumentText v

/-- The text of a kind that has no wording of its own. -/
def plainText : List Json → String
  | [] => ""
  | [v] => argumentText v
  | vs => "(" ++ ", ".intercalate (vs.map argumentLiteral) ++ ")"

/-- A kind whose text may be given, and is the default otherwise. -/
def withDefault (kind : FaultKind) (default : String) : List Json → Option Fault
  | [] => some (.stated kind default)
  | [v] => some (.stated kind (argumentText v))
  | _ => none

def constant (fault : Fault) : List Json → Option Fault
  | [] => some fault
  | _ => none

def ofText (make : String → Fault) : List Json → Option Fault
  | [v] => some (make (argumentText v))
  | _ => none

def ofInteger (make : Int → Fault) : List Json → Option Fault
  | [.int n] => some (make n)
  | _ => none

def ofIntegers (make : Int → Int → Fault) : List Json → Option Fault
  | [.int m, .int n] => some (make m n)
  | _ => none

/-- The detail of a mismatch; none, an empty text and zero are no detail. -/
def ofDetail : List Json → Option Fault
  | [] => some (.assetMismatch "")
  | [.int 0] => some (.assetMismatch "")
  | [v] => some (.assetMismatch (argumentText v))
  | _ => none

/-- The fault of a kind with the given arguments, if the kind takes such. -/
def ofArguments? (kind : FaultKind) : List Json → Option Fault :=
  match kind with
  | .emptyAssets => constant .emptyAssets
  | .assetMismatch => ofDetail
  | .sameAsset => constant .sameAsset
  | .unExistingPool => ofText .unExistingPool
  | .invalidPoolAssetsForSingleSide => constant .notTwoAssets
  | .emptyPoolForSingleSide => constant .emptyReserve
  | .noSwapOperations => constant .noHops
  | .invalidPoolAssetsLength => ofIntegers .assetsLength
  | .invalidSlippageTolerance => constant .slippageAboveOne
  | .invalidBeliefPrice => constant .zeroBeliefPrice
  | .noPendingProvision => ofText .noPendingProvision
  | .provisionAlreadyPending => ofText .provisionPending
  | .converge => withDefault .converge "Failed to converge when performing newtons method"
  | .stableInvariant => constant .missingDeposit
  | .stableLpMint => constant .invariantNotGrown
  | .liquidityShare => constant .noShare
  | .maxSlippage => constant .slippageExceeded
  | .maxSpread => constant .spreadExceeded
  | .invalidInitialLiquidity => ofInteger .initialLiquidity
  | .invalidLpShare => constant .shareToWithdraw
  | .invalidSingleSideSwap => ofIntegers .balanceDrift
  | .unauthorized => withDefault .unauthorized "Unauthorized"
  | .operationDisabled => ofText .operationDisabled
  | .manager | .validation | .invalidPoolFees | .invalidFunds | .math | .checkedInteger
  | .divisionByZero | .underflow | .overflow | .conversionOverflow | .economic =>
    fun arguments => some (.stated kind (plainText arguments))

def ofArguments (kind : FaultKind) (arguments : List Json) : Result Fault :=
  match ofArguments? kind arguments with
  | some fault => .ok fault
  | none => .error (.type .unsupportedOperands)

end MarketMaker.Fault
