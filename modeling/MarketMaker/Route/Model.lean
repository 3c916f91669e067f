import MarketMaker.Pool.Model
import MarketMaker.Route.Basic

namespace MarketMaker

open Reading

namespace Hop

def ofFields (fields : Fields) : Reading Hop :=
  Hop.mk <$> required "token_in_denom" name fields
    <*> required "token_out_denom" name fields
    <*> required "pool_identifier" Pool.identifier? fields

def toJson (h : Hop) : Json :=
  .object
    [ ("token_in_denom", .text h.offerDenom),
      ("token_out_denom", .text h.askDenom),
      ("pool_identifier", .text h.pool) ]

/-- Hops as objects; `otherwise` is the problem of any other value. -/
def modelOr (otherwise : ProblemKind) : Model Hop := ⟨object otherwise ofFields, toJson⟩

def model : Model Hop := modelOr .modelType

def make (offerDenom askDenom pool : String) : Result Hop :=
  (ofFields (fields ⟨offerDenom, askDenom, pool⟩)).toResult
where
  fields (h : Hop) : Fields :=
    [ ("token_in_denom", .text h.offerDenom),
      ("token_out_denom", .text h.askDenom),
      ("pool_identifier", .text h.pool) ]

end Hop

namespace RouteCosts

def ofFields (fields : Fields) : Reading RouteCosts :=
  RouteCosts.mk <$> optional "spreads" [] Coin.model.listOf.read fields
    <*> optional "swap_fees" [] Coin.model.listOf.read fields
    <*> optional "protocol_fees" [] Coin.model.listOf.read fields
    <*> optional "burn_fees" [] Coin.model.listOf.read fields
    <*> optional "extra_fees" [] Coin.model.listOf.read fields

def toFields (costs : RouteCosts) : Fields :=
  [ ("spreads", Coin.listToJson costs.spreads),
    ("swap_fees", Coin.listToJson costs.swapFees),
    ("protocol_fees", Coin.listToJson costs.protocolFees),
    ("burn_fees", Coin.listToJson costs.burnFees),
    ("extra_fees", Coin.listToJson costs.extraFees) ]

end RouteCosts

namespace RouteQuote

def modelNamed (amountName : String) : Model RouteQuote where
  read := object .modelType fun fields =>
    RouteQuote.mk <$> required amountName Reading.amount fields <*> RouteCosts.ofFields fields
  write q := .object ((amountName, .int q.amount) :: q.costs.toFields)

def forwardModel : Model RouteQuote := modelNamed "return_amount"

def backwardModel : Model RouteQuote := modelNamed "offer_amount"

end RouteQuote

end MarketMaker
