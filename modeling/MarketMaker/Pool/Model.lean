import MarketMaker.Coin.Model
import MarketMaker.Pool.Basic

namespace MarketMaker

open Reading

/-! ### Curves -/

namespace Curve

def constantProductOfFields (fields : Fields) : Reading Curve :=
  (fun _ => constantProduct) <$> optional "kind" () (literal constantProductKind) fields

def stableSwapOfFields (fields : Fields) : Reading Curve :=
  (fun _ amp => stableSwap amp) <$> optional "kind" () (literal stableSwapKind) fields
    <*> required "amp" (bounded 1 maxAmp) fields

/-- Reads the curve that a tag names; the tag stands in the path of its problems. -/
def ofTagged (fields : Fields) : Json → Reading Curve
  | .text tag =>
    if tag = constantProductKind then (constantProductOfFields fields).within tag
    else if tag = stableSwapKind then (stableSwapOfFields fields).within tag
    else problem .tagInvalid
  | _ => problem .tagInvalid

def ofFields (fields : Fields) : Reading Curve :=
  match Json.lookup "kind" fields with
  | none => problem .tagNotFound
  | some tag => ofTagged fields tag

def toJson : Curve → Json
  | constantProduct => .object [("kind", .text constantProductKind)]
  | stableSwap amp => .object [("kind", .text stableSwapKind), ("amp", .int amp)]

def model : Model Curve := ⟨object .modelAttributesType ofFields, toJson⟩

def constantProductModel : Model Curve := ⟨object .modelType constantProductOfFields, toJson⟩

def stableSwapModel : Model Curve := ⟨object .modelType stableSwapOfFields, toJson⟩

def makeStableSwap (amp : Int) : Result Curve := (stableSwapOfFields [("amp", .int amp)]).toResult

end Curve

/-! ### Fees -/

namespace FeeSchedule

def share (v : Json) : Reading Ratio :=
  (ratio v).andThen fun r => if Ratio.one < r then refused (.feeAboveOne r) else accepted r

def feeOfFields (fields : Fields) : Reading Ratio := optional "share" .zero share fields

def feeToJson (share : Ratio) : Json := .object [("share", .text share.text)]

def feeModel : Model Ratio := ⟨object .modelType feeOfFields, feeToJson⟩

def checkTotal (fees : FeeSchedule) : Reading FeeSchedule :=
  if Ratio.one ≤ fees.total then refused (.feesReachOne fees.total) else accepted fees

def ofFields (fields : Fields) : Reading FeeSchedule :=
  (FeeSchedule.mk <$> optional "swap_fee" .zero feeModel.read fields
    <*> optional "protocol_fee" .zero feeModel.read fields
    <*> optional "burn_fee" .zero feeModel.read fields
    <*> optional "extra_fees" [] feeModel.listOf.read fields).andThen checkTotal

def toJson (fees : FeeSchedule) : Json :=
  .object
    [ ("swap_fee", feeToJson fees.swap),
      ("protocol_fee", feeToJson fees.protocol),
      ("burn_fee", feeToJson fees.burn),
      ("extra_fees", feeModel.listOf.write fees.extra) ]

def model : Model FeeSchedule := ⟨object .modelType ofFields, toJson⟩

def fee (share : Json) : Result Ratio := (feeOfFields [("share", share)]).toResult

/-- The schedule of the given shares, read one after the other. -/
def ofShares (swap protocol burn : Json) (extra : List Json) : Result FeeSchedule := do
  let swap ← fee swap
  let protocol ← fee protocol
  let burn ← fee burn
  let extra ← extra.mapM fee
  (checkTotal ⟨swap, protocol, burn, extra⟩).toResult

end FeeSchedule

/-! ### Pools -/

namespace Pool

def identifier? (v : Json) : Reading String :=
  Reading.identifier maxIdentifierLength isIdentifierChar v

def checkAssets (p : Pool) : Reading Pool :=
  if p.assets.length < 2 ∨ maxAssets < p.assets.length then
    problem (.value (.assetCount p.assets.length))
  else if ¬ p.denoms.Nodup then problem (.value (.repeatedDenoms p.denoms))
  else if p.decimals.length ≠ p.assets.length then
    problem (.value (.decimalsCount p.assets.length p.decimals.length))
  else accepted p

def ofFields (fields : Fields) : Reading Pool :=
  (Pool.mk <$> required "pool_identifier" identifier? fields
    <*> required "assets" Coin.model.listOf.read fields
    <*> required "pool_type" Curve.model.read fields
    <*> required "lp_denom" name fields
    <*> optional "pool_fees" {} FeeSchedule.model.read fields
    <*> required "asset_decimals" (list (bounded 0 maxDecimals)) fields).andThen checkAssets

def toJson (p : Pool) : Json :=
  .object
    [ ("pool_identifier", .text p.identifier),
      ("assets", Coin.listToJson p.assets),
      ("pool_type", p.curve.toJson),
      ("lp_denom", .text p.lpDenom),
      ("pool_fees", p.fees.toJson),
      ("asset_decimals", .list (p.decimals.map .int)) ]

def model : Model Pool := ⟨object .modelType ofFields, toJson⟩

end Pool

end MarketMaker
