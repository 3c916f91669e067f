import MarketMaker.Coin.Basic
import MarketMaker.Pool.Basic
import MarketMaker.Table

/-! The ledger: balances of addresses, supplies of denoms and locked positions. An action that fails
half-way keeps what it has changed. -/

namespace MarketMaker

structure Position where
  identifier : String
  receiver : String
  asset : Coin
  duration : Int
  deriving DecidableEq, Repr

structure Ledger where
  /-- Balances by address and denom. -/
  balances : Table (String × String) Int
  supplies : Table String Int
  positions : Table String Position
  deriving DecidableEq

/-- A change of a state that may fail; a failure keeps the state it has reached. -/
abbrev Action (σ : Type) := EStateM Failure σ

instance {σ : Type} : MonadLift Result (Action σ) where
  monadLift
    | .ok a => pure a
    | .error e => throw e

namespace Ledger

def empty : Ledger := ⟨.empty, .empty, .empty⟩

def balance (l : Ledger) (address denom : String) : Int :=
  (l.balances.get? (address, denom)).getD 0

def supply (l : Ledger) (denom : String) : Int := (l.supplies.get? denom).getD 0

def position? (l : Ledger) (identifier : String) : Option Position := l.positions.get? identifier

def setBalance (l : Ledger) (address denom : String) (amount : Int) : Ledger :=
  { l with balances := l.balances.put (address, denom) amount }

def setSupply (l : Ledger) (denom : String) (amount : Int) : Ledger :=
  { l with supplies := l.supplies.put denom amount }

def credit (address denom : String) (amount : Int) : Action Ledger Unit := do
  let l ← get
  let sum ← Checked.add (l.balance address denom) amount
  set (l.setBalance address denom sum)

def debit (address denom : String) (amount : Int) : Action Ledger Unit := do
  let l ← get
  let rest ← Checked.sub (l.balance address denom) amount
  set (l.setBalance address denom rest)

def mint (address denom : String) (amount : Int) : Action Ledger Unit := do
  let l ← get
  let sum ← Checked.add (l.supply denom) amount
  set (l.setSupply denom sum)
  credit address denom amount

def burn (address denom : String) (amount : Int) : Action Ledger Unit := do
  debit address denom amount
  let l ← get
  let rest ← Checked.sub (l.supply denom) amount
  set (l.setSupply denom rest)

def mintAll (address : String) : List Coin → Action Ledger Unit
  | [] => pure ()
  | c :: rest => do
    mint address c.denom c.amount
    mintAll address rest

def burnAll (address : String) : List Coin → Action Ledger Unit
  | [] => pure ()
  | c :: rest => do
    burn address c.denom c.amount
    burnAll address rest

def transfer (source target : String) : List Coin → Action Ledger Unit
  | [] => pure ()
  | c :: rest => do
    debit source c.denom c.amount
    credit target c.denom c.amount
    transfer source target rest

def lockedAsset (existing : Option Position) (asset : Coin) : Result Coin :=
  match existing with
  | none => .ok asset
  | some p => (Checked.add p.asset.amount asset.amount).map fun sum => ⟨asset.denom, sum⟩

/-- Opens a position, or adds to one; receiver and duration are replaced. -/
def lock (identifier receiver : String) (asset : Coin) (duration : Int) :
    Action Ledger Position := do
  let l ← get
  let asset ← lockedAsset (l.position? identifier) asset
  let position := ⟨identifier, receiver, asset, duration⟩
  set { l with positions := l.positions.put identifier position }
  pure position

/-- Credits the balances of a pool to an address, and a supply of its shares. -/
def seed (holder : String) (pool : Pool) (supply : Int) : Action Ledger Unit := do
  mintAll holder (pool.assets.filter fun c => 0 < c.amount)
  if 0 < supply then mint holder pool.lpDenom supply else pure ()

theorem balance_setBalance {l : Ledger} {address denom a d : String} {amount : Int} :
    (l.setBalance address denom amount).balance a d =
      if address = a ∧ denom = d then amount else l.balance a d := by
  simp only [balance, setBalance, Table.get?_put, Prod.mk.injEq]
  split <;> rfl

theorem supply_setSupply {l : Ledger} {denom d : String} {amount : Int} :
    (l.setSupply denom amount).supply d = if denom = d then amount else l.supply d := by
  simp only [supply, setSupply, Table.get?_put]
  split <;> rfl

theorem supply_setBalance {l : Ledger} {address denom d : String} {amount : Int} :
    (l.setBalance address denom amount).supply d = l.supply d := rfl

theorem balance_setSupply {l : Ledger} {denom a d : String} {amount : Int} :
    (l.setSupply denom amount).balance a d = l.balance a d := rfl

end Ledger

end MarketMaker
