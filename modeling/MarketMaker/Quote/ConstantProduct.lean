import MarketMaker.Quote.Basic

namespace MarketMaker.ConstantProduct

/-- The return `ask - ⌈offer * ask / (offer + amount)⌉`. -/
def grossReturn (offer ask amount : Int) : Result GrossReturn := do
  let remaining ← Checked.divCeil (offer * ask) (offer + amount)
  let gross ← Checked.sub ask remaining
  let ideal ← Checked.mulDiv amount ask offer
  .ok ⟨gross, Checked.subFloor ideal gross⟩

def quote (offer ask amount : Int) (fees : FeeSchedule) : Result SwapQuote := do
  let gross ← grossReturn offer ask amount
  gross.net fees

/-- The offer `⌈offer * ask / (ask - gross)⌉ - offer` for a gross return. -/
def offerFor (offer ask gross : Int) : Result Int := do
  let remaining ← Checked.sub ask gross
  let balance ← Checked.divCeil (offer * ask) remaining
  Checked.sub balance offer

def quoteOffer (offer ask amount : Int) (fees : FeeSchedule) : Result OfferQuote := do
  let gross ← grossAmount fees amount
  let needed ← offerFor offer ask gross
  let ideal ← Checked.mulDiv needed ask offer
  let needed ← Checked.narrow needed
  .ok ⟨needed, Checked.subFloor ideal gross, fees.charge gross⟩

end MarketMaker.ConstantProduct
