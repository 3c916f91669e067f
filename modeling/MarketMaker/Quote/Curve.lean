import MarketMaker.Pool.Curve
import MarketMaker.Quote.ConstantProduct
import MarketMaker.Quote.StableSwap

namespace MarketMaker

/-- The two sides of a swap in a pool. -/
structure Market where
  /-- The number of assets of the pool. -/
  n : Int
  offer : Int
  ask : Int
  offerDecimals : Int
  askDecimals : Int
  fees : FeeSchedule
  deriving DecidableEq, Repr

namespace Market

def side (m : Market) (amp : Int) : StableSwap.Side :=
  ⟨m.n, amp, m.offer, m.ask, m.offerDecimals, m.askDecimals⟩

def quote (m : Market) (solver : Solver) (amount : Int) : Curve → Result SwapQuote
  | .constantProduct => ConstantProduct.quote m.offer m.ask amount m.fees
  | .stableSwap amp => StableSwap.quote solver (m.side amp) amount m.fees

def quoteOffer (m : Market) (solver : Solver) (amount : Int) : Curve → Result OfferQuote
  | .constantProduct => ConstantProduct.quoteOffer m.offer m.ask amount m.fees
  | .stableSwap amp => StableSwap.quoteOffer solver (m.side amp) amount m.fees

end Market

end MarketMaker
