/-! The kinds of domain fault. They form a tree: every kind but `manager` has a parent, and a kind
is also whatever its ancestors are. -/

namespace MarketMaker

inductive FaultKind
  | manager
  -- rejected before any computation
  | validation | emptyAssets | assetMismatch | sameAsset | unExistingPool
  | invalidPoolAssetsForSingleSide | emptyPoolForSingleSide | noSwapOperations
  | invalidPoolAssetsLength | invalidPoolFees | invalidFunds | invalidSlippageTolerance
  | invalidBeliefPrice | noPendingProvision | provisionAlreadyPending
  -- arithmetic
  | math | converge | stableInvariant | stableLpMint | liquidityShare
  | checkedInteger | divisionByZero | underflow | overflow | conversionOverflow
  -- guardrails
  | economic | maxSlippage | maxSpread | invalidInitialLiquidity | invalidLpShare
  | invalidSingleSideSwap
  -- permissions
  | unauthorized | operationDisabled
  deriving DecidableEq, Repr

namespace FaultKind

def all : List FaultKind :=
  [ .manager, .validation, .emptyAssets, .assetMismatch, .sameAsset, .unExistingPool,
    .invalidPoolAssetsForSingleSide, .emptyPoolForSingleSide, .noSwapOperations,
    .invalidPoolAssetsLength, .invalidPoolFees, .invalidFunds, .invalidSlippageTolerance,
    .invalidBeliefPrice, .noPendingProvision, .provisionAlreadyPending, .math, .converge,
    .stableInvariant, .stableLpMint, .liquidityShare, .checkedInteger, .divisionByZero,
    .underflow, .overflow, .conversionOverflow, .economic, .maxSlippage, .maxSpread,
    .invalidInitialLiquidity, .invalidLpShare, .invalidSingleSideSwap, .unauthorized,
    .operationDisabled ]

def name : FaultKind → String
  | manager => "PoolManagerError"
  | validation => "ValidationError"
  | emptyAssets => "EmptyAssets"
  | assetMismatch => "AssetMismatch"
  | sameAsset => "SameAsset"
  | unExistingPool => "UnExistingPool"
  | invalidPoolAssetsForSingleSide => "InvalidPoolAssetsForSingleSideLiquidityProvision"
  | emptyPoolForSingleSide => "EmptyPoolForSingleSideLiquidityProvision"
  | noSwapOperations => "NoSwapOperationsProvided"
  | invalidPoolAssetsLength => "InvalidPoolAssetsLength"
  | invalidPoolFees => "InvalidPoolFees"
  | invalidFunds => "InvalidFunds"
  | invalidSlippageTolerance => "InvalidSlippageTolerance"
  | invalidBeliefPrice => "InvalidBeliefPrice"
  | noPendingProvision => "NoPendingProvision"
  | provisionAlreadyPending => "ProvisionAlreadyPending"
  | math => "MathError"
  | converge => "ConvergeError"
  | stableInvariant => "StableInvariantError"
  | stableLpMint => "StableLpMintError"
  | liquidityShare => "LiquidityShareComputationFailed"
  | checkedInteger => "SafeIntError"
  | divisionByZero => "DivisionByZero"
  | underflow => "Underflow"
  | overflow => "Overflow"
  | conversionOverflow => "ConversionOverflow"
  | economic => "EconomicError"
  | maxSlippage => "MaxSlippageAssertion"
  | maxSpread => "MaxSpreadAssertion"
  | invalidInitialLiquidity => "InvalidInitialLiquidityAmount"
  | invalidLpShare => "InvalidLpShareToWithdraw"
  | invalidSingleSideSwap => "InvalidSingleSideLiquidityProvisionSwap"
  | unauthorized => "Unauthorized"
  | operationDisabled => "OperationDisabled"

def parent? : FaultKind → Option FaultKind
  | manager => none
  | validation | math | economic | unauthorized | operationDisabled => some manager
  | emptyAssets | assetMismatch | sameAsset | unExistingPool | invalidPoolAssetsForSingleSide
  | emptyPoolForSingleSide | noSwapOperations | invalidPoolAssetsLength | invalidPoolFees
  | invalidFunds | invalidSlippageTolerance | invalidBeliefPrice | noPendingProvision
  | provisionAlreadyPending => some validation
  | converge | stableInvariant | stableLpMint | liquidityShare | checkedInteger => some math
  | divisionByZero | underflow | overflow | conversionOverflow => some checkedInteger
  | maxSlippage | maxSpread | invalidInitialLiquidity | invalidLpShare
  | invalidSingleSideSwap => some economic

/-- The first ancestors of a kind, nearest first, at most the given number of them. -/
def lineage : Nat → FaultKind → List FaultKind
  | 0, _ => []
  | depth + 1, kind =>
    match kind.parent? with
    | none => []
    | some parent => parent :: lineage depth parent

/-- All ancestors of a kind, nearest first; the tree has four levels. -/
def ancestors (kind : FaultKind) : List FaultKind := lineage 3 kind

def isArithmetic (kind : FaultKind) : Bool :=
  kind = math || kind.ancestors.contains math

def ofName? (name : String) : Option FaultKind :=
  all.find? fun kind => kind.name = name

end FaultKind

end MarketMaker
