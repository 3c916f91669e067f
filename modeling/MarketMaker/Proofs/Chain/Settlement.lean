import MarketMaker.Proofs.Chain.Transaction

/-! # The effects that settle a transaction

`settle` does what `execute` does, and answers the effects that settle the operation, in order. A
half-swap that is run at once is settled by the effects of its confirmation: the payments of its
trade are not among them. -/

namespace MarketMaker.Chain

open Ledger

def settleMessage : Message → Action Chain (List Effect)
  | .effect e => do
    applyEffect e
    pure [e]
  | .halfSwap h => do
    let c ← get
    if c.autoConfirm then
      let settlement ← runHalfSwap h
      pure settlement.effects
    else
      set { c with pending := c.pending ++ [h] }
      pure []

def settleMessages : List Message → Action Chain (List Effect)
  | [] => pure []
  | m :: rest => do
    let effects ← settleMessage m
    let more ← settleMessages rest
    pure (effects ++ more)

def settleCall (operation : Operation) (call : Call) : Action Chain (List Effect) := do
  withLedger (Ledger.transfer call.sender managerAddress call.funds)
  let response ← invoke operation call
  settleMessages response.messages

/-- One transaction, under the next number, with the effects that settle it. -/
def settle (sender : String) (funds : List Coin) (operation : Operation) :
    Action Chain (List Effect) := do
  modify fun c => { c with transactions := c.transactions + 1 }
  let c ← get
  atomically (settleCall operation ⟨sender, funds, "tx-" ++ toString c.transactions⟩)

/-- A transaction that issues some of a denom: it succeeds, and mints. -/
def Mints (c : Chain) (sender : String) (funds : List Coin) (operation : Operation)
    (denom : String) : Prop :=
  ∃ effects c', settle sender funds operation c = .ok effects c' ∧
    ∃ amount recipient, 0 < amount ∧ .mintShare denom amount recipient ∈ effects

/-! ## The same steps as those of a transaction -/

variable {c c' : Chain} {effects : List Effect}

theorem settleMessage_eq_ok {m : Message} :
    (∃ effects, settleMessage m c = .ok effects c') ↔ applyMessage m c = .ok () c' := by
  cases m with
  | effect e =>
      simp only [settleMessage, applyMessage, Action.bind_eq_ok, Action.pure_eq_ok]
      constructor
      · rintro ⟨_, _, _, happly, rfl, rfl⟩
        exact happly
      · exact fun happly => ⟨[e], (), c', happly, rfl, rfl⟩
  | halfSwap h =>
      simp only [settleMessage, applyMessage, Action.get_bind]
      split
      · simp only [Action.bind_eq_ok, Action.pure_eq_ok, true_and]
        constructor
        · rintro ⟨_, settlement, _, hrun, rfl, rfl⟩
          exact ⟨settlement, c', hrun, rfl⟩
        · rintro ⟨settlement, _, hrun, rfl⟩
          exact ⟨_, settlement, c', hrun, rfl, rfl⟩
      · simp only [Action.set_bind, Action.pure_eq_ok, Action.set_eq_ok, exists_eq_left]

theorem settleMessages_eq_ok {messages : List Message} :
    (∃ effects, settleMessages messages c = .ok effects c') ↔
      applyMessages messages c = .ok () c' := by
  induction messages generalizing c with
  | nil => simp only [settleMessages, applyMessages, Action.pure_eq_ok, exists_eq_left, true_and]
  | cons m rest ih =>
      simp only [settleMessages, applyMessages, Action.bind_eq_ok, Action.pure_eq_ok]
      constructor
      · rintro ⟨_, first, c₁, hfirst, more, _, hmore, -, rfl⟩
        exact ⟨(), c₁, settleMessage_eq_ok.1 ⟨first, hfirst⟩, ih.1 ⟨more, hmore⟩⟩
      · rintro ⟨_, c₁, hfirst, hrest⟩
        obtain ⟨first, hfirst⟩ := settleMessage_eq_ok.2 hfirst
        obtain ⟨more, hmore⟩ := ih.2 hrest
        exact ⟨_, first, c₁, hfirst, more, c', hmore, rfl, rfl⟩

theorem settleCall_eq_ok {op : Operation} {call : Call} :
    settleCall op call c = .ok effects c' ↔ ∃ l r s,
      Ledger.transfer call.sender managerAddress call.funds c.state.ledger = .ok () l ∧
        op.run call (c.funded l).state = .ok r s ∧
          settleMessages r.messages { c with state := s } = .ok effects c' := by
  simp only [settleCall, invoke, Action.bind_eq_ok, withLedger_eq_ok, withState_eq_ok]
  constructor
  · rintro ⟨_, _, ⟨l, htransfer, rfl⟩, r, _, ⟨s, hrun, rfl⟩, hmessages⟩
    exact ⟨l, r, s, htransfer, hrun, hmessages⟩
  · rintro ⟨l, r, s, htransfer, hrun, hmessages⟩
    exact ⟨(), _, ⟨l, htransfer, rfl⟩, r, _, ⟨s, hrun, rfl⟩, hmessages⟩

variable {sender : String} {funds : List Coin} {op : Operation}

theorem settle_eq_ok : settle sender funds op c = .ok effects c' ↔
    settleCall op (c.nextCall sender funds) c.counted = .ok effects c' := by
  simp only [settle, Action.modify_bind, Action.get_bind, atomically_eq_ok]
  rfl

/-- A transaction that is settled succeeds and leaves the same chain, and the other way round. -/
theorem exists_settle_iff : (∃ effects, settle sender funds op c = .ok effects c') ↔
    ∃ r, execute sender funds op c = .ok r c' := by
  simp only [settle_eq_ok, execute_eq_ok, settleCall_eq_ok, transact_eq_ok,
    ← settleMessages_eq_ok]
  constructor
  · rintro ⟨effects, l, r, s, htransfer, hrun, hmessages⟩
    exact ⟨r, l, s, htransfer, hrun, effects, hmessages⟩
  · rintro ⟨r, l, s, htransfer, hrun, effects, hmessages⟩
    exact ⟨effects, l, r, s, htransfer, hrun, hmessages⟩

theorem after_execute_of_settle (h : settle sender funds op c = .ok effects c') :
    after (execute sender funds op) c = c' := by
  obtain ⟨r, hexecute⟩ := exists_settle_iff.1 ⟨effects, h⟩
  exact after_eq_of_ok hexecute

/-! ## Half-swaps -/

/-- Where swaps are confirmed at once, a half-swap is settled by its confirmation. -/
theorem settleMessages_halfSwap {h : HalfSwap} (hauto : c.autoConfirm = true) :
    settleMessages [.halfSwap h] c = .ok effects c' ↔
      ∃ settlement, runHalfSwap h c = .ok settlement c' ∧ effects = settlement.effects := by
  simp only [settleMessages, settleMessage, Action.bind_eq_ok, Action.get_bind, hauto, ite_true,
    Action.pure_eq_ok]
  constructor
  · rintro ⟨_, _, ⟨settlement, _, hrun, rfl, rfl⟩, _, _, ⟨rfl, rfl⟩, rfl, rfl⟩
    exact ⟨settlement, hrun, List.append_nil _⟩
  · rintro ⟨settlement, hrun, rfl⟩
    exact ⟨_, c', ⟨settlement, c', hrun, rfl, rfl⟩, _, _, ⟨rfl, rfl⟩, (List.append_nil _).symm, rfl⟩

end MarketMaker.Chain
