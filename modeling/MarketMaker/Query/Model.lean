import MarketMaker.Query.Basic
import MarketMaker.Route.Model

namespace MarketMaker

open Reading

namespace PoolInfo

def ofFields (fields : Fields) : Reading PoolInfo :=
  PoolInfo.mk <$> required "pool_info" Pool.model.read fields
    <*> required "total_share" Coin.model.read fields

def toJson (info : PoolInfo) : Json :=
  .object [("pool_info", info.pool.toJson), ("total_share", info.supply.toJson)]

def model : Model PoolInfo := ⟨object .modelType ofFields, toJson⟩

def pageModel : Model (List PoolInfo) where
  read := object .modelType (required "pools" model.listOf.read)
  write page := .object [("pools", model.listOf.write page)]

end PoolInfo

namespace DecimalsInfo

def ofFields (fields : Fields) : Reading DecimalsInfo :=
  DecimalsInfo.mk <$> required "pool_identifier" Pool.identifier? fields
    <*> required "denom" name fields
    <*> required "decimals" integer fields

def toJson (info : DecimalsInfo) : Json :=
  .object
    [ ("pool_identifier", .text info.pool),
      ("denom", .text info.denom),
      ("decimals", .int info.decimals) ]

def model : Model DecimalsInfo := ⟨object .modelType ofFields, toJson⟩

end DecimalsInfo

structure PriceRequest where
  coin : Coin
  otherDenom : String
  pool : String
  deriving DecidableEq, Repr

namespace PriceRequest

/-- Requests as objects, with the given names of coin and denom; `otherwise` is the problem of any
other value. -/
def modelNamed (coinName denomName : String) (otherwise : ProblemKind) : Model PriceRequest where
  read := object otherwise fun fields =>
    PriceRequest.mk <$> required coinName (Coin.modelOr otherwise).read fields
      <*> required denomName name fields
      <*> required "pool_identifier" Pool.identifier? fields
  write r :=
    .object
      [ (coinName, r.coin.toJson),
        (denomName, .text r.otherDenom),
        ("pool_identifier", .text r.pool) ]

def forward (otherwise : ProblemKind) : Model PriceRequest :=
  modelNamed "offer_asset" "ask_asset_denom" otherwise

def backward (otherwise : ProblemKind) : Model PriceRequest :=
  modelNamed "ask_asset" "offer_asset_denom" otherwise

end PriceRequest

structure RouteRequest where
  amount : Int
  hops : List Hop
  deriving DecidableEq, Repr

namespace RouteRequest

def modelNamed (amountName : String) (otherwise : ProblemKind) : Model RouteRequest where
  read := object otherwise fun fields =>
    RouteRequest.mk <$> required amountName Reading.amount fields
      <*> optional "operations" [] (Hop.modelOr otherwise).listOf.read fields
  write r :=
    .object
      [(amountName, .int r.amount), ("operations", (Hop.modelOr otherwise).listOf.write r.hops)]

def forward (otherwise : ProblemKind) : Model RouteRequest := modelNamed "offer_amount" otherwise

def backward (otherwise : ProblemKind) : Model RouteRequest := modelNamed "ask_amount" otherwise

end RouteRequest

end MarketMaker
