import MarketMaker.State

/-! Withdrawals: shares are burned for their part of every asset, rounded down. -/

namespace MarketMaker.Withdrawal

/-- The shares that a call brings, at least one and at most the supply. -/
def burned (call : Call) (pool : Pool) (supply : Int) : Result Int :=
  match call.funds with
  | [c] =>
    if c.denom ≠ pool.lpDenom ∨ c.amount = 0 ∨ supply < c.amount then fail .shareToWithdraw
    else .ok c.amount
  | _ => fail .shareToWithdraw

def refund (asset : Coin) (amount supply : Int) : Result Coin :=
  (Checked.mulDiv asset.amount amount supply).map fun part => ⟨asset.denom, part⟩

def rest (asset paid : Coin) : Result Coin :=
  (Checked.sub asset.amount paid.amount).map fun left => ⟨asset.denom, left⟩

/-- Each asset's payment and what stays of it. -/
def split (assets : List Coin) (amount supply : Int) : Result (List (Coin × Coin)) :=
  assets.mapM fun asset => do
    let paid ← refund asset amount supply
    let left ← rest asset paid
    .ok (paid, left)

def attributes (call : Call) (pool : String) (amount : Int) (paid : List Coin) : Attributes :=
  [ ("action", "withdraw_liquidity"),
    ("sender", call.sender),
    ("pool_identifier", pool),
    ("withdrawn_share", toString amount),
    ("refund_assets", Coin.texts paid) ]

def run (identifier : String) (call : Call) : Action State Outcome := do
  let s ← get
  checkEnabled s.config.withdrawalsEnabled "withdraw_liquidity"
  let pool ← s.pool identifier
  let supply := s.shareSupply pool
  let amount ← burned call pool supply
  let parts ← split pool.assets amount supply
  let paid := (parts.map Prod.fst).filter fun c => 0 < c.amount
  let refunds := if paid = [] then [] else [.send call.sender paid]
  State.keepPool (pool.withAssets (parts.map Prod.snd))
  pure ⟨pool.withAssets (parts.map Prod.snd), refunds ++ [.burnShare pool.lpDenom amount],
    attributes call identifier amount paid⟩

end MarketMaker.Withdrawal
