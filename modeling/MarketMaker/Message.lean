import MarketMaker.Coin.Basic
import MarketMaker.Ratio.Basic

/-! What operations answer: messages for the chain to carry out, in order, and attributes that
describe what was done. -/

namespace MarketMaker

/-- A transfer, issue or lock of coins that the manager asks for. -/
inductive Effect
  /-- Coins of the manager go to a recipient. -/
  | send (recipient : String) (coins : List Coin)
  | burn (coins : List Coin)
  /-- Shares are issued to a recipient. -/
  | mintShare (denom : String) (amount : Int) (recipient : String)
  | burnShare (denom : String) (amount : Int)
  /-- Shares of the manager are locked by a service; `expands` when there is a position already. -/
  | lock (service : String) (expands : Bool) (receiver : String) (asset : Coin)
      (identifier : Option String) (duration : Int)
  deriving DecidableEq, Repr

/-- The swap of one half of a deposit, which the manager makes with itself. -/
structure HalfSwap where
  provision : String
  pool : String
  offer : Coin
  askDenom : String
  maxSpread : Option Ratio
  deriving DecidableEq, Repr

inductive Message
  | effect (e : Effect)
  | halfSwap (h : HalfSwap)
  deriving DecidableEq, Repr

abbrev Attributes := List (String × String)

/-- The effects of an operation that is complete, and its attributes. -/
structure Settlement where
  effects : List Effect
  attributes : Attributes
  deriving DecidableEq, Repr

structure Response where
  messages : List Message
  attributes : Attributes
  deriving DecidableEq, Repr

def Settlement.toResponse (s : Settlement) : Response := ⟨s.effects.map .effect, s.attributes⟩

namespace Message

def kind : Message → String
  | effect (.send ..) => "BankSend"
  | effect (.burn ..) => "Burn"
  | effect (.mintShare ..) => "MintLp"
  | effect (.burnShare ..) => "BurnLp"
  | effect (.lock ..) => "ManagePosition"
  | halfSwap _ => "DeferredSwap"

end Message

end MarketMaker
