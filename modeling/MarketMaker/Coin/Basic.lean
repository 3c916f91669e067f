import MarketMaker.Checked.Basic

namespace MarketMaker

structure Coin where
  denom : String
  amount : Int
  deriving DecidableEq, Repr

namespace Coin

/-- A named denom, and an amount of 128 bits. -/
def Valid (c : Coin) : Prop := c.denom ≠ "" ∧ 0 ≤ c.amount ∧ c.amount ≤ maxAmount

instance (c : Coin) : Decidable c.Valid := inferInstanceAs (Decidable (_ ∧ _ ∧ _))

def text (c : Coin) : String := toString c.amount ++ c.denom

def texts (coins : List Coin) : String := ", ".intercalate (coins.map text)

end Coin

end MarketMaker
