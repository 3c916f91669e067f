import MarketMaker.Chain.Report
import MarketMaker.Checked.Accumulator
import MarketMaker.Fault.Arguments
import MarketMaker.Http.Service
import MarketMaker.Model.Catalogue
import MarketMaker.Quote.Choice
import MarketMaker.Ratio.Accumulator
import MarketMaker.Proofs.Movement
import MarketMaker.Proofs.Quote
import MarketMaker.Proofs.Fees
import MarketMaker.Proofs.Reserve
import MarketMaker.Proofs.Operation.Swap
import MarketMaker.Proofs.Aggregate
import MarketMaker.Proofs.Operation.Deposit
import MarketMaker.Proofs.Operation.SingleSided
import MarketMaker.Proofs.Operation.Withdrawal
import MarketMaker.Proofs.Operation.Basic
import MarketMaker.Proofs.Chain.HalfSwap
import MarketMaker.Proofs.Chain.Transaction
import MarketMaker.Proofs.Chain.Queue
import MarketMaker.Proofs.Chain.Sound
import MarketMaker.Proofs.Surplus
import MarketMaker.Proofs.Conservation
import MarketMaker.Proofs.Solvency
import MarketMaker.Proofs.Operation.Worth
import MarketMaker.Proofs.Chain.Worth
import MarketMaker.Proofs.StableSwap.Invariant
import MarketMaker.Proofs.StableSwap.Balance
import MarketMaker.Proofs.StableSwap.Swap
import MarketMaker.Proofs.StableSwap.Price
import MarketMaker.Proofs.StableSwap.Iterate
import MarketMaker.Proofs.StableSwap.Truncation
import MarketMaker.Proofs.StableSwap.Order
import MarketMaker.Proofs.StableSwap.PairTotal
import MarketMaker.Proofs.Route
import MarketMaker.Proofs.Route.Cost
import MarketMaker.Proofs.Route.Parts
import MarketMaker.Proofs.Supply
import MarketMaker.Proofs.Chain.Reachable
import MarketMaker.Proofs.Market
import MarketMaker.Proofs.Chain.Settlement
import MarketMaker.Proofs.Chain.Alike
import MarketMaker.Proofs.Chain.SingleSided
import MarketMaker.Proofs.Chain.SwapThenDeposit
import MarketMaker.Proofs.Lock
import MarketMaker.Proofs.Chain.Delivery
import MarketMaker.Proofs.Ownership
import MarketMaker.Proofs.Chain.Ending
import MarketMaker.Proofs.MinimumLiquidity
import MarketMaker.Proofs.Farm
import MarketMaker.Proofs.Chain.Once
import MarketMaker.Proofs.Session
import MarketMaker.Proofs.Chain.Writes
import MarketMaker.Proofs.Query
import MarketMaker.Proofs.Chain.Refund
import MarketMaker.Proofs.Numeral
import MarketMaker.Proofs.Json.Scalar
import MarketMaker.Proofs.Json.RoundTrip
import MarketMaker.Proofs.Chain.Dependence
import MarketMaker.Proofs.Chain.Commute
import MarketMaker.Proofs.Chain.Journey
import MarketMaker.Proofs.Ratio.Text
import MarketMaker.Proofs.Ratio.Decimal
import MarketMaker.Proofs.Model
import MarketMaker.Proofs.Snapshot
import MarketMaker.Proofs.ConstantProduct
import MarketMaker.Proofs.Http.Endpoint
import MarketMaker.Proofs.Http.Reference
import MarketMaker.Proofs.Http.Service
import MarketMaker.Proofs.Liquidity.Series
import MarketMaker.Proofs.Liquidity.Withdrawals
import MarketMaker.Proofs.Liquidity.RoundTrip
import MarketMaker.Proofs.Liquidity.Slippage
import MarketMaker.Proofs.Funds
import MarketMaker.Proofs.Liquidity.StableRoundTrip
import MarketMaker.Proofs.Liquidity.StableSlippage
import MarketMaker.Proofs.Chain.Liquidity
import MarketMaker.Proofs.Pages
import MarketMaker.Proofs.Http.Listing
