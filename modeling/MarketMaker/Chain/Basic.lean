import MarketMaker.Operation.Basic

/-! A chain that runs operations as transactions and carries out the messages they answer. A
transaction that fails leaves ledger and pools as they were; provisions, waiting swaps and counters
stay as the failure found them. -/

namespace MarketMaker

structure Chain where
  state : State
  /-- Whether the swap of a provision runs at once, or waits until it is run. -/
  autoConfirm : Bool
  pending : List HalfSwap
  transactions : Nat
  positions : Nat

namespace Chain

def empty (config : Config) (autoConfirm : Bool) : Chain :=
  ⟨.empty config, autoConfirm, [], 0, 0⟩

def rollback (c : Chain) (earlier : State) : Chain :=
  { c with state :=
    { c.state with ledger := earlier.ledger, registry := earlier.registry } }

/-- Runs an action, and undoes its changes to ledger and pools if it fails. -/
def atomically {α : Type} (action : Action Chain α) : Action Chain α := fun c =>
  match action c with
  | .ok a c' => .ok a c'
  | .error e c' => .error e (c'.rollback c.state)

def withLedger {α : Type} (action : Action Ledger α) : Action Chain α := fun c =>
  match action c.state.ledger with
  | .ok a l => .ok a { c with state := { c.state with ledger := l } }
  | .error e l => .error e { c with state := { c.state with ledger := l } }

def withState {α : Type} (action : Action State α) : Action Chain α := fun c =>
  match action c.state with
  | .ok a s => .ok a { c with state := s }
  | .error e s => .error e { c with state := s }

/-! ### Messages -/

def freshPosition : Action Chain String := do
  modify fun c => { c with positions := c.positions + 1 }
  let c ← get
  pure ("position-" ++ toString c.positions)

def positionName : Option String → Action Chain String
  | some identifier => pure identifier
  | none => freshPosition

def applyEffect : Effect → Action Chain Unit
  | .send recipient coins => withLedger (Ledger.transfer managerAddress recipient coins)
  | .burn coins => withLedger (Ledger.burnAll managerAddress coins)
  | .mintShare denom amount recipient => withLedger (Ledger.mint recipient denom amount)
  | .burnShare denom amount => withLedger (Ledger.burn managerAddress denom amount)
  | .lock service _ receiver asset identifier duration => do
    withLedger (Ledger.transfer managerAddress service [asset])
    let identifier ← positionName identifier
    let _ ← withLedger (Ledger.lock identifier receiver asset duration)
    pure ()

def applyEffects : List Effect → Action Chain Unit
  | [] => pure ()
  | e :: rest => do
    applyEffect e
    applyEffects rest

/-! ### Waiting swaps -/

/-- The swap of a provision, which the manager makes with itself. -/
def halfSwapOrder (h : HalfSwap) : SwapOrder where
  pool := h.pool
  askDenom := h.askDenom
  maxSpread := h.maxSpread
  receiver := some managerAddress

def halfSwapCall (h : HalfSwap) : Call := ⟨managerAddress, [h.offer], h.provision⟩

def trade (h : HalfSwap) : Action Chain Unit := do
  let outcome ← withState ((halfSwapOrder h).run (halfSwapCall h))
  applyEffects outcome.settlement.effects

/-- Makes the swap, and answers whether it went through. A fault of the domain undoes it; any other
failure ends the whole run. -/
def tryTrade (h : HalfSwap) : Action Chain Bool := fun c =>
  match trade h c with
  | .ok _ c' => .ok true c'
  | .error (.fault _) c' => .ok false (c'.rollback c.state)
  | .error e c' => .error e c'

def confirm (confirmation : Confirmation) : Action Chain Settlement := do
  let settlement ← withState confirmation.run
  applyEffects settlement.effects
  pure settlement

def runHalfSwap (h : HalfSwap) : Action Chain Settlement := do
  -- Whatever comes of it, the half-swap does not wait any more.
  modify fun c => { c with pending := c.pending.erase h }
  let success ← tryTrade h
  confirm ⟨h.provision, success⟩

def applyMessage : Message → Action Chain Unit
  | .effect e => applyEffect e
  | .halfSwap h => do
    let c ← get
    if c.autoConfirm then
      let _ ← runHalfSwap h
      pure ()
    else set { c with pending := c.pending ++ [h] }

def applyMessages : List Message → Action Chain Unit
  | [] => pure ()
  | m :: rest => do
    applyMessage m
    applyMessages rest

/-! ### Transactions -/

/-- Runs an operation and keeps its changes, without carrying out its messages. -/
def invoke (operation : Operation) (call : Call) : Action Chain Response :=
  withState (operation.run call)

def transact (operation : Operation) (call : Call) : Action Chain Response := do
  withLedger (Ledger.transfer call.sender managerAddress call.funds)
  let response ← invoke operation call
  applyMessages response.messages
  pure response

/-- One transaction, under the next number. -/
def execute (sender : String) (funds : List Coin) (operation : Operation) :
    Action Chain Response := do
  modify fun c => { c with transactions := c.transactions + 1 }
  let c ← get
  atomically (transact operation ⟨sender, funds, "tx-" ++ toString c.transactions⟩)

def runDeferred (h : HalfSwap) : Action Chain Settlement := atomically (runHalfSwap h)

def fund (address : String) (coins : List Coin) : Action Chain Unit :=
  withLedger (Ledger.mintAll address coins)

/-- Keeps a pool and gives its balances to the manager. -/
def addPool (pool : Pool) : Action Chain Unit := do
  modify fun c => { c with state := c.state.savePool pool }
  withLedger (Ledger.seed managerAddress pool 0)

def addPools : List Pool → Action Chain Unit
  | [] => pure ()
  | pool :: rest => do
    addPool pool
    addPools rest

/-! ### Runs -/

/-- What users and the chain itself can do. -/
inductive Event
  | execute (sender : String) (funds : List Coin) (operation : Operation)
  | runDeferred (h : HalfSwap)
  | fund (address : String) (coins : List Coin)
  | addPool (pool : Pool)
  deriving DecidableEq, Repr

def perform : Event → Action Chain Unit
  | .execute sender funds operation => do
    let _ ← execute sender funds operation
    pure ()
  | .runDeferred h => do
    let _ ← runDeferred h
    pure ()
  | .fund address coins => fund address coins
  | .addPool pool => addPool pool

def after {α : Type} (action : Action Chain α) (c : Chain) : Chain :=
  match action c with
  | .ok _ c' => c'
  | .error _ c' => c'

/-- The chain after events, of which each may fail. -/
def run (events : List Event) (c : Chain) : Chain :=
  events.foldl (fun c e => after (perform e) c) c

end Chain

end MarketMaker
