import MarketMaker.Pool.Basic
import MarketMaker.Quote.Curve

namespace MarketMaker

structure AssetPair where
  offerIndex : Nat
  askIndex : Nat
  offer : Int
  ask : Int
  offerDecimals : Int
  askDecimals : Int
  deriving DecidableEq, Repr

namespace Pool

def balanceAt (p : Pool) (i : Nat) : Int := (p.balances[i]?).getD 0

def decimalsAt (p : Pool) (i : Nat) : Int := (p.decimals[i]?).getD 0

def pair (p : Pool) (offer ask : String) : Result AssetPair :=
  if offer = ask then fail .sameAsset
  else do
    let i ← p.indexOf offer
    let j ← p.indexOf ask
    .ok ⟨i, j, p.balanceAt i, p.balanceAt j, p.decimalsAt i, p.decimalsAt j⟩

/-- What the price of a swap between two sides depends on. -/
def market (p : Pool) (sides : AssetPair) : Market where
  n := p.assets.length
  offer := sides.offer
  ask := sides.ask
  offerDecimals := sides.offerDecimals
  askDecimals := sides.askDecimals
  fees := p.fees

def quote (p : Pool) (solver : Solver) (offer : Coin) (ask : String) : Result SwapQuote := do
  let sides ← p.pair offer.denom ask
  (p.market sides).quote solver offer.amount p.curve

def quoteOffer (p : Pool) (solver : Solver) (ask : Coin) (offer : String) : Result OfferQuote := do
  let sides ← p.pair offer ask.denom
  (p.market sides).quoteOffer solver ask.amount p.curve

end Pool

end MarketMaker
