import MarketMaker.Coin.Model
import MarketMaker.Route.Basic
import MarketMaker.State

namespace MarketMaker

structure PoolInfo where
  pool : Pool
  supply : Coin
  deriving DecidableEq, Repr

structure DecimalsInfo where
  pool : String
  denom : String
  decimals : Int
  deriving DecidableEq, Repr

namespace State

def poolInfo (s : State) (pool : Pool) : Result PoolInfo := do
  let supply ← Coin.make pool.lpDenom (s.shareSupply pool)
  .ok ⟨pool, supply⟩

def findPool (s : State) (identifier : String) : Result PoolInfo := do
  let pool ← s.pool identifier
  s.poolInfo pool

def listPools (s : State) (start : Option String) (limit : Option Int) : Result (List PoolInfo) :=
  (s.registry.page start limit).mapM s.poolInfo

/-- One pool if an identifier is given, and a page of pools otherwise. -/
def queryPools (s : State) (identifier start : Option String) (limit : Option Int) :
    Result (List PoolInfo) :=
  match identifier with
  | some identifier => (s.findPool identifier).map fun info => [info]
  | none => s.listPools start limit

def assetDecimals (s : State) (identifier denom : String) : Result DecimalsInfo := do
  let pool ← s.pool identifier
  let i ← pool.indexOf denom
  .ok ⟨identifier, denom, pool.decimalsAt i⟩

def quote (s : State) (offer : Coin) (askDenom pool : String) : Result SwapQuote :=
  s.registry.quote s.config.solver offer askDenom pool

def quoteOffer (s : State) (ask : Coin) (offerDenom pool : String) : Result OfferQuote :=
  s.registry.quoteOffer s.config.solver ask offerDenom pool

def quoteRoute (s : State) (offer : Int) (hops : List Hop) : Result RouteQuote :=
  Route.quote s.registry s.config.solver offer hops

def quoteRouteOffer (s : State) (ask : Int) (hops : List Hop) : Result RouteQuote :=
  Route.quoteOffer s.registry s.config.solver ask hops

end State

end MarketMaker
