import MarketMaker.Coin.Basic
import MarketMaker.Number.Sum

/-! Sums of coins. `aggregate` gives one coin for each denom, in the order of denoms; `addAll` adds
coins to a list and keeps the order of the list. Every sum on the way must fit an amount. -/

namespace MarketMaker.Coin

/-- Adds a coin to totals that ascend by denom. -/
def tally (c : Coin) : List Coin → Result (List Coin)
  | [] => (Checked.add 0 c.amount).map fun amount => [⟨c.denom, amount⟩]
  | d :: rest =>
    if c.denom = d.denom then
      (Checked.add d.amount c.amount).map fun amount => ⟨d.denom, amount⟩ :: rest
    else if c.denom < d.denom then
      (Checked.add 0 c.amount).map fun amount => ⟨c.denom, amount⟩ :: d :: rest
    else (tally c rest).map (d :: ·)

/-- One coin for each denom, ascending by denom; zeros are kept. -/
def aggregate (coins : List Coin) : Result (List Coin) :=
  coins.foldlM (fun totals c => tally c totals) []

def addToLast? (c : Coin) : List Coin → Option (Result (List Coin))
  | [] => none
  | d :: rest =>
    match addToLast? c rest with
    | some sum => some (sum.map (d :: ·))
    | none =>
      if d.denom = c.denom then
        some ((Checked.add d.amount c.amount).map fun amount => ⟨d.denom, amount⟩ :: rest)
      else none

/-- Adds a coin to the last one of its denom, or at the end. -/
def addOne (coins : List Coin) (c : Coin) : Result (List Coin) :=
  (addToLast? c coins).getD (.ok (coins ++ [c]))

def addAll (base extra : List Coin) : Result (List Coin) := extra.foldlM addOne base

def total (denom : String) (coins : List Coin) : Int :=
  sumOf ((coins.filter fun c => c.denom = denom).map Coin.amount)

theorem addAll_nil {base : List Coin} : addAll base [] = .ok base := rfl

end MarketMaker.Coin
