import MarketMaker.Quote.Basic

namespace MarketMaker.Spread

def defaultLimit : Ratio := ⟨10000000000000000⟩

def maxLimit : Ratio := ⟨500000000000000000⟩

def limit (given : Option Ratio) : Ratio := Ratio.min (given.getD defaultLimit) maxLimit

/-- The return falls short of the expected one beyond the limit. -/
def ShortfallExceeded (limit : Ratio) (expected returned : Int) : Prop :=
  returned < expected ∧
    limit.atomics * expected < Checked.subFloor expected returned * Ratio.unit

instance (limit : Ratio) (expected returned : Int) :
    Decidable (ShortfallExceeded limit expected returned) :=
  inferInstanceAs (Decidable (_ ∧ _))

/-- The spread is beyond the limit as a part of return and spread. -/
def SpreadExceeded (limit : Ratio) (returned spread : Int) : Prop :=
  limit.atomics * (returned + spread) < spread * Ratio.unit

instance (limit : Ratio) (returned spread : Int) :
    Decidable (SpreadExceeded limit returned spread) :=
  inferInstanceAs (Decidable (_ < _))

/-- Refuses a swap whose spread is too large. With a belief price (offer units for one ask unit) the
return is compared with what the offer is worth at that price. -/
def check (beliefPrice maxSpread : Option Ratio) (offer returned spread : Int) : Result Unit :=
  match beliefPrice with
  | some price =>
    if price.isZero then fail .zeroBeliefPrice
    else do
      let expected ← price.divFloor offer
      if ShortfallExceeded (limit maxSpread) expected returned then fail .spreadExceeded else .ok ()
  | none =>
    if SpreadExceeded (limit maxSpread) returned spread then fail .spreadExceeded else .ok ()

end MarketMaker.Spread
