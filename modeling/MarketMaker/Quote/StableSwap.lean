import MarketMaker.Precision
import MarketMaker.Quote.Basic
import MarketMaker.StableSwap.Balance

/-! Prices on the stableswap curve. Balances are raised to the larger precision of the two assets,
and one unit of it is held back from a return or added to an offer. -/

namespace MarketMaker.StableSwap

/-- What a price on the curve depends on beside the amount. -/
structure Side where
  /-- The number of assets of the pool. -/
  n : Int
  amp : Int
  offer : Int
  ask : Int
  offerDecimals : Int
  askDecimals : Int
  deriving DecidableEq, Repr

namespace Side

/-- The larger precision of the two assets. -/
def precision (s : Side) : Int := max s.offerDecimals s.askDecimals

def offerRaised (s : Side) : Int := Precision.raise s.offer s.offerDecimals s.precision

def askRaised (s : Side) : Int := Precision.raise s.ask s.askDecimals s.precision

end Side

def grossReturn (solver : Solver) (s : Side) (amount : Int) : Result GrossReturn := do
  let raised := Precision.raise amount s.offerDecimals s.precision
  let balance ← counterBalance solver s.n s.offerRaised s.askRaised raised s.amp .forward
  -- One unit is held back for what the solver rounds off.
  let paid := Checked.subFloor s.askRaised (balance + 1)
  let gross := Precision.lower paid s.precision s.askDecimals
  let ideal := Precision.lower raised s.precision s.askDecimals
  .ok ⟨gross, Checked.subFloor ideal gross⟩

def quote (solver : Solver) (s : Side) (amount : Int) (fees : FeeSchedule) : Result SwapQuote := do
  let gross ← grossReturn solver s amount
  gross.net fees

def quoteOffer (solver : Solver) (s : Side) (amount : Int) (fees : FeeSchedule) :
    Result OfferQuote := do
  let gross ← grossAmount fees amount
  let raised := Precision.raise gross s.askDecimals s.precision
  let balance ← counterBalance solver s.n s.offerRaised s.askRaised raised s.amp .backward
  let needed ← Checked.sub balance s.offerRaised
  -- One unit is added for the same reason.
  let offer := Precision.lowerCeil (needed + 1) s.precision s.offerDecimals
  let ideal := Precision.lower (needed + 1) s.precision s.askDecimals
  let offer ← Checked.narrow offer
  .ok ⟨offer, Checked.subFloor ideal gross, fees.charge gross⟩

end MarketMaker.StableSwap
