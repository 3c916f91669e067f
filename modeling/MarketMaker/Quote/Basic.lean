import MarketMaker.Checked.Basic
import MarketMaker.Pool.Fees
import MarketMaker.Ratio.Arithmetic

/-! Quotes: what a swap returns for an offer, and what must be offered for a return. -/

namespace MarketMaker

/-- The price of an offer, in units of the asked asset. -/
structure SwapQuote where
  returned : Int
  /-- What the offer is worth at the price of the balances, less the gross return. -/
  spread : Int
  charges : Charges
  deriving DecidableEq, Repr

/-- The offer for a return; spread and charges are in units of the asked asset. -/
structure OfferQuote where
  offer : Int
  spread : Int
  charges : Charges
  deriving DecidableEq, Repr

structure GrossReturn where
  amount : Int
  spread : Int
  deriving DecidableEq, Repr

def GrossReturn.net (gross : GrossReturn) (fees : FeeSchedule) : Result SwapQuote := do
  let charges := fees.charge gross.amount
  let rest ← Checked.sub gross.amount charges.total
  let returned ← Checked.narrow rest
  .ok ⟨returned, gross.spread, charges⟩

/-- The gross return that leaves a net amount after fees, rounded up. -/
def grossAmount (fees : FeeSchedule) (net : Int) : Result Int := do
  let rest ← fees.total.complement
  rest.divCeil net

end MarketMaker
