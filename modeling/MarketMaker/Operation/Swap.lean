import MarketMaker.Pool.Pair
import MarketMaker.Quote.Spread
import MarketMaker.State

/-! Swaps. The offer joins the pool; the return and the fees that go out leave it, and the swap fee
stays. -/

namespace MarketMaker

structure SwapOrder where
  pool : String
  askDenom : String
  beliefPrice : Option Ratio := none
  maxSpread : Option Ratio := none
  receiver : Option String := none
  deriving DecidableEq, Repr

namespace SwapOrder

/-- The only coin of a call, which must not be zero. -/
def offerOf (call : Call) : Result Coin :=
  match call.funds with
  | [c] => if c.amount = 0 then fail .offerCoinRequired else .ok c
  | _ => fail .offerCoinRequired

def newAssets (pool : Pool) (sides : AssetPair) (offer : Coin) (ask : String) (q : SwapQuote) :
    Result (List Coin) := do
  let offered ← Checked.add sides.offer offer.amount
  let asked ← Checked.sub sides.ask q.returned
  let asked ← Checked.sub asked q.charges.outgoing
  .ok ((pool.assets.set sides.offerIndex ⟨offer.denom, offered⟩).set sides.askIndex ⟨ask, asked⟩)

/-- Pays the return, the collected fees and the burned fee, each if it is above zero. -/
def effects (config : Config) (receiver ask : String) (q : SwapQuote) : List Effect :=
  (if 0 < q.returned then [.send receiver [⟨ask, q.returned⟩]] else []) ++
    (if 0 < q.charges.collected then [.send config.feeCollector [⟨ask, q.charges.collected⟩]]
      else []) ++
    (if 0 < q.charges.burn then [.burn [⟨ask, q.charges.burn⟩]] else [])

def attributes (order : SwapOrder) (call : Call) (receiver : String) (offer : Coin)
    (q : SwapQuote) : Attributes :=
  [ ("action", "swap"),
    ("sender", call.sender),
    ("receiver", receiver),
    ("pool_identifier", order.pool),
    ("offer_denom", offer.denom),
    ("ask_denom", order.askDenom),
    ("offer_amount", toString offer.amount),
    ("return_amount", toString q.returned),
    ("spread_amount", toString q.spread),
    ("swap_fee_amount", toString q.charges.swap),
    ("protocol_fee_amount", toString q.charges.protocol),
    ("burn_fee_amount", toString q.charges.burn),
    ("extra_fees_amount", toString q.charges.extra) ]

def run (order : SwapOrder) (call : Call) : Action State Outcome := do
  let s ← get
  checkEnabled s.config.swapsEnabled "swap"
  let offer ← offerOf call
  let receiver := call.receiver order.receiver
  let pool ← s.pool order.pool
  let sides ← pool.pair offer.denom order.askDenom
  let q ← (pool.market sides).quote s.config.solver offer.amount pool.curve
  Spread.check order.beliefPrice order.maxSpread offer.amount q.returned q.spread
  let assets ← newAssets pool sides offer order.askDenom q
  let effects := effects s.config receiver order.askDenom q
  -- The only write, after all that can fail.
  State.keepPool (pool.withAssets assets)
  pure ⟨pool.withAssets assets, effects, order.attributes call receiver offer q⟩

end SwapOrder

end MarketMaker
