import MarketMaker.Chain.Basic
import MarketMaker.Coin.Model

namespace MarketMaker

namespace Json

def ofOption {α : Type} (f : α → Json) : Option α → Json
  | none => null
  | some a => f a

def ofRatio (r : Ratio) : Json := text r.text

def ofTexts (items : List String) : Json := list (items.map text)

end Json

open Json

namespace Message

/-- The fields of a message beside its kind. -/
def toFields : Message → List (String × Json)
  | effect (.send recipient coins) =>
    [("to_address", .text recipient), ("amount", Coin.listToJson coins)]
  | effect (.burn coins) => [("amount", Coin.listToJson coins)]
  | effect (.mintShare denom amount recipient) =>
    [("denom", .text denom), ("amount", .int amount), ("recipient", .text recipient)]
  | effect (.burnShare denom amount) => [("denom", .text denom), ("amount", .int amount)]
  | effect (.lock service expands receiver asset identifier duration) =>
    [ ("contract_addr", .text service),
      ("action", .text (if expands then "expand" else "create")),
      ("receiver", .text receiver),
      ("funds", Coin.listToJson [asset]),
      ("identifier", ofOption .text identifier),
      ("unlocking_duration", .int duration) ]
  | halfSwap h =>
    [ ("provision_id", .text h.provision),
      ("pool_identifier", .text h.pool),
      ("offer", h.offer.toJson),
      ("ask_denom", .text h.askDenom),
      ("max_spread", ofOption ofRatio h.maxSpread) ]

def toJson (m : Message) : Json := .object (("type", .text m.kind) :: m.toFields)

end Message

namespace Response

def toJson (r : Response) : Json :=
  .object
    [ ("messages", .list (r.messages.map Message.toJson)),
      ("attributes", .object (r.attributes.map fun e => (e.1, .text e.2))) ]

def messagesOf (r : Response) (kind : String) : List Message :=
  r.messages.filter fun m => m.kind = kind

end Response

def ProvisionRequest.toJson (r : ProvisionRequest) : Json :=
  .object
    [ ("pool_identifier", .text r.pool),
      ("slippage_tolerance", ofOption ofRatio r.slippageTolerance),
      ("max_spread", ofOption ofRatio r.maxSpread),
      ("unlocking_duration", ofOption .int r.unlockingDuration),
      ("lock_position_identifier", ofOption .text r.lockIdentifier) ]

def Provision.toJson (p : Provision) : Json :=
  .object
    [ ("sender", .text p.sender),
      ("receiver", .text p.receiver),
      ("offer_denom", .text p.offerDenom),
      ("ask_denom", .text p.askDenom),
      ("expected_offer_balance", .int p.expectedOfferBalance),
      ("expected_ask_balance", .int p.expectedAskBalance),
      ("offer_half", .int p.offerHalf),
      ("provide_offer_amount", .int p.keptOffer),
      ("expected_ask_amount", .int p.expectedReturn),
      ("request", p.request.toJson) ]

def Position.toJson (p : Position) : Json :=
  .object
    [ ("identifier", .text p.identifier),
      ("receiver", .text p.receiver),
      ("lp_asset", p.asset.toJson),
      ("unlocking_duration", .int p.duration) ]

def Config.toJson (c : Config) : Json :=
  .object
    [ ("fee_collector_addr", .text c.feeCollector),
      ("farm_manager_addr", .text c.farmManager),
      ("feature_toggle",
        .object
          [ ("deposits_enabled", .bool c.depositsEnabled),
            ("withdrawals_enabled", .bool c.withdrawalsEnabled),
            ("swaps_enabled", .bool c.swapsEnabled) ]),
      ("provision_drift_tolerance", .int c.driftTolerance),
      ("solver_settings",
        .object
          [ ("max_iterations", .int c.solver.maxIterations),
            ("tolerance", .int c.solver.tolerance) ]),
      ("pools_file", ofOption .text c.poolsFile) ]

namespace Ledger

/-- The amounts of an address that are not zero. -/
def holdings (l : Ledger) (address : String) : List (String × Json) :=
  (l.balances.entries.filter fun e => e.1.1 = address ∧ e.2 ≠ 0).map fun e => (e.1.2, .int e.2)

def holders (l : Ledger) : List String :=
  ((l.balances.entries.filter fun e => e.2 ≠ 0).map fun e => e.1.1).eraseDups

def balancesToJson (l : Ledger) : Json :=
  .object (l.holders.map fun address => (address, .object (l.holdings address)))

def suppliesToJson (l : Ledger) : Json :=
  .object ((l.supplies.entries.filter fun e => e.2 ≠ 0).map fun e => (e.1, .int e.2))

end Ledger

def Chain.toJson (c : Chain) : Json :=
  .object
    [ ("pools", .object (c.state.registry.entries.map fun e => (e.1, ofTexts e.2.assetTexts))),
      ("balances", c.state.ledger.balancesToJson),
      ("supply", c.state.ledger.suppliesToJson),
      ("positions",
        .object (c.state.ledger.positions.entries.map fun e => (e.1, e.2.toJson))),
      ("provisions", .object (c.state.provisions.entries.map fun e => (e.1, e.2.toJson))),
      ("pending_swaps", ofTexts (c.pending.map HalfSwap.provision)) ]

end MarketMaker
