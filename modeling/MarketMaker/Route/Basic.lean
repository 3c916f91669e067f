import MarketMaker.Coin.Aggregate
import MarketMaker.Coin.Model
import MarketMaker.Pool.Pair
import MarketMaker.Quote.Model
import MarketMaker.Registry

/-! Routes through several pools. Forward, the return of each hop is the offer of the next;
backward, the offer of each hop is what the one before it must return. Spreads and fees are gathered
by denom. -/

namespace MarketMaker

structure Hop where
  offerDenom : String
  askDenom : String
  pool : String
  deriving DecidableEq, Repr

structure RouteCosts where
  spreads : List Coin := []
  swapFees : List Coin := []
  protocolFees : List Coin := []
  burnFees : List Coin := []
  extraFees : List Coin := []
  deriving DecidableEq, Repr

/-- What goes out at the end of a route, or in at its start, and the costs on the way. -/
structure RouteQuote where
  amount : Int
  costs : RouteCosts
  deriving DecidableEq, Repr

namespace RouteCosts

/-- Notes an amount unless it is zero. -/
def note (coins : List Coin) (denom : String) (amount : Int) : List Coin :=
  if 0 < amount then coins ++ [⟨denom, amount⟩] else coins

def record (costs : RouteCosts) (denom : String) (spread : Int) (charges : Charges) :
    RouteCosts where
  spreads := note costs.spreads denom spread
  swapFees := note costs.swapFees denom charges.swap
  protocolFees := note costs.protocolFees denom charges.protocol
  burnFees := note costs.burnFees denom charges.burn
  extraFees := note costs.extraFees denom charges.extra

def aggregate (costs : RouteCosts) : Result RouteCosts := do
  let spreads ← Coin.aggregate costs.spreads
  let swapFees ← Coin.aggregate costs.swapFees
  let protocolFees ← Coin.aggregate costs.protocolFees
  let burnFees ← Coin.aggregate costs.burnFees
  let extraFees ← Coin.aggregate costs.extraFees
  .ok ⟨spreads, swapFees, protocolFees, burnFees, extraFees⟩

end RouteCosts

namespace Registry

def quote (r : Registry) (solver : Solver) (offer : Coin) (askDenom pool : String) :
    Result SwapQuote := do
  let pool ← r.get pool
  let q ← pool.quote solver offer askDenom
  q.reported

def quoteOffer (r : Registry) (solver : Solver) (ask : Coin) (offerDenom pool : String) :
    Result OfferQuote := do
  let pool ← r.get pool
  let q ← pool.quoteOffer solver ask offerDenom
  q.reported

end Registry

namespace Route

def forwardHop (r : Registry) (solver : Solver) (soFar : RouteQuote) (hop : Hop) :
    Result RouteQuote := do
  let offer ← Coin.make hop.offerDenom soFar.amount
  let q ← r.quote solver offer hop.askDenom hop.pool
  .ok ⟨q.returned, soFar.costs.record hop.askDenom q.spread q.charges⟩

def backwardHop (r : Registry) (solver : Solver) (soFar : RouteQuote) (hop : Hop) :
    Result RouteQuote := do
  let ask ← Coin.make hop.askDenom soFar.amount
  let q ← r.quoteOffer solver ask hop.offerDenom hop.pool
  .ok ⟨q.offer, soFar.costs.record hop.askDenom q.spread q.charges⟩

def finish (q : RouteQuote) : Result RouteQuote := do
  let costs ← q.costs.aggregate
  .ok { q with costs }

/-- What a route returns for an offer at its start. -/
def quote (r : Registry) (solver : Solver) (offer : Int) (hops : List Hop) :
    Result RouteQuote :=
  if hops = [] then fail .noHops
  else do
    let q ← hops.foldlM (forwardHop r solver) ⟨offer, {}⟩
    finish q

/-- What must be offered at the start of a route for a return at its end. -/
def quoteOffer (r : Registry) (solver : Solver) (ask : Int) (hops : List Hop) :
    Result RouteQuote :=
  if hops = [] then fail .noHops
  else do
    let q ← hops.reverse.foldlM (backwardHop r solver) ⟨ask, {}⟩
    finish q

end Route

end MarketMaker
