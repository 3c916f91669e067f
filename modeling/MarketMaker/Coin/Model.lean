import MarketMaker.Coin.Basic
import MarketMaker.Model.Basic
import MarketMaker.Reading.Scalar

namespace MarketMaker.Coin

open Reading

def ofFields (fields : Fields) : Reading Coin :=
  Coin.mk <$> required "denom" name fields <*> required "amount" Reading.amount fields

def toJson (c : Coin) : Json := .object [("denom", .text c.denom), ("amount", .int c.amount)]

/-- Coins as objects; `otherwise` is the problem of any other value. -/
def modelOr (otherwise : ProblemKind) : Model Coin where
  read := object otherwise ofFields
  write := toJson

def model : Model Coin := modelOr .modelType

def make (denom : String) (amount : Int) : Result Coin :=
  (ofFields [("denom", .text denom), ("amount", .int amount)]).toResult

def listToJson (coins : List Coin) : Json := .list (coins.map toJson)

end MarketMaker.Coin
