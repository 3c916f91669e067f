import MarketMaker.Model.Basic
import MarketMaker.Quote.Basic
import MarketMaker.Reading.Scalar

/-! Quotes as JSON. A quote that is reported holds amounts of 128 bits only. -/

namespace MarketMaker

open Reading

namespace Charges

def ofFields (fields : Fields) : Reading Charges :=
  Charges.mk <$> required "swap_fee_amount" amount fields
    <*> required "protocol_fee_amount" amount fields
    <*> required "burn_fee_amount" amount fields
    <*> required "extra_fees_amount" amount fields

def toFields (c : Charges) : Fields :=
  [ ("swap_fee_amount", .int c.swap),
    ("protocol_fee_amount", .int c.protocol),
    ("burn_fee_amount", .int c.burn),
    ("extra_fees_amount", .int c.extra) ]

end Charges

namespace SwapQuote

def ofFields (fields : Fields) : Reading SwapQuote :=
  SwapQuote.mk <$> required "return_amount" amount fields
    <*> required "spread_amount" amount fields
    <*> Charges.ofFields fields

def toFields (q : SwapQuote) : Fields :=
  ("return_amount", .int q.returned) :: ("spread_amount", .int q.spread) :: q.charges.toFields

def model : Model SwapQuote := ⟨object .modelType ofFields, fun q => .object q.toFields⟩

/-- The quote as it is reported, if every part fits an amount. -/
def reported (q : SwapQuote) : Result SwapQuote := (ofFields q.toFields).toResult

end SwapQuote

namespace OfferQuote

def ofFields (fields : Fields) : Reading OfferQuote :=
  OfferQuote.mk <$> required "offer_amount" amount fields
    <*> required "spread_amount" amount fields
    <*> Charges.ofFields fields

def toFields (q : OfferQuote) : Fields :=
  ("offer_amount", .int q.offer) :: ("spread_amount", .int q.spread) :: q.charges.toFields

def model : Model OfferQuote := ⟨object .modelType ofFields, fun q => .object q.toFields⟩

def reported (q : OfferQuote) : Result OfferQuote := (ofFields q.toFields).toResult

end OfferQuote

end MarketMaker
