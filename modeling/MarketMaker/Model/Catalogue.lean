import MarketMaker.Pool.Snapshot
import MarketMaker.Query.Model

namespace MarketMaker.Model

abbrev Inspector := Json → Reading Inspection

def catalogue : List (String × Inspector) :=
  [ ("Coin", Coin.model.inspect),
    ("ConstantProduct", Curve.constantProductModel.inspect),
    ("StableSwap", Curve.stableSwapModel.inspect),
    ("Fee", FeeSchedule.feeModel.inspect),
    ("PoolFees", FeeSchedule.model.inspect),
    ("Pool", Pool.model.inspect),
    ("SwapOperation", Hop.model.inspect),
    ("SimulationResponse", SwapQuote.model.inspect),
    ("ReverseSimulationResponse", OfferQuote.model.inspect),
    ("SimulateSwapOperationsResponse", RouteQuote.forwardModel.inspect),
    ("ReverseSimulateSwapOperationsResponse", RouteQuote.backwardModel.inspect),
    ("PoolInfoResponse", PoolInfo.model.inspect),
    ("PoolsResponse", PoolInfo.pageModel.inspect),
    ("AssetDecimalsResponse", DecimalsInfo.model.inspect),
    ("PoolSnapshot", Snapshot.model.inspect),
    ("PoolsFile", Snapshot.fileModel.inspect),
    ("SimulationRequest", (PriceRequest.forward .modelType).inspect),
    ("ReverseSimulationRequest", (PriceRequest.backward .modelType).inspect),
    ("SimulateSwapOperationsRequest", (RouteRequest.forward .modelType).inspect),
    ("ReverseSimulateSwapOperationsRequest", (RouteRequest.backward .modelType).inspect) ]

def inspector? (name : String) : Option Inspector :=
  (catalogue.find? fun e => e.1 = name).map Prod.snd

end MarketMaker.Model
