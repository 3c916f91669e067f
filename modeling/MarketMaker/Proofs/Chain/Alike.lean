import MarketMaker.Proofs.Operation.Deposit
import MarketMaker.Proofs.Supply

/-! # Chains that cannot be told apart

Ledgers are alike that answer alike, in whatever order their entries came. From alike chains a
deposit goes the same way and leaves alike chains, whatever else has happened to the two before. -/

namespace MarketMaker

/-! ## Actions -/

/-- What the action does in one state it does in every related one, and the states stay related. -/
def Action.Respects {σ α : Type} (r : σ → σ → Prop) (x : Action σ α) : Prop :=
  ∀ ⦃s t : σ⦄, r s t → ∀ ⦃a : α⦄ ⦃s' : σ⦄, x s = .ok a s' → ∃ t', x t = .ok a t' ∧ r s' t'

namespace Action.Respects

variable {σ α β : Type} {r : σ → σ → Prop}

theorem pure (a : α) : Respects r (Pure.pure a : Action σ α) := by
  intro s t hr b s' h
  obtain ⟨rfl, rfl⟩ := Action.pure_eq_ok.1 h
  exact ⟨t, rfl, hr⟩

theorem bind {x : Action σ α} {f : α → Action σ β} (hx : Respects r x)
    (hf : ∀ a, Respects r (f a)) : Respects r (x >>= f) := by
  intro s t hr b s' h
  obtain ⟨a, u, hfirst, hrest⟩ := Action.bind_eq_ok.1 h
  obtain ⟨v, hfirst', hr'⟩ := hx hr hfirst
  obtain ⟨t', hrest', hr''⟩ := hf a hr' hrest
  exact ⟨t', Action.bind_eq_ok.2 ⟨a, v, hfirst', hrest'⟩, hr''⟩

end Action.Respects

/-! ## Ledgers -/

namespace Ledger

/-- The same balances, supplies and positions. -/
structure Alike (l m : Ledger) : Prop where
  balance : ∀ a d, l.balance a d = m.balance a d
  supply : ∀ d, l.supply d = m.supply d
  positions : l.positions = m.positions

namespace Alike

variable {l m n : Ledger}

theorem symm (h : l.Alike m) : m.Alike l :=
  ⟨fun a d => (h.balance a d).symm, fun d => (h.supply d).symm, h.positions.symm⟩

theorem position?_eq (h : l.Alike m) : l.position? = m.position? := by
  funext identifier
  rw [position?, position?, h.positions]

theorem setBalance (h : l.Alike m) (address denom : String) (amount : Int) :
    (l.setBalance address denom amount).Alike (m.setBalance address denom amount) where
  balance a d := by rw [balance_setBalance, balance_setBalance, h.balance]
  supply := h.supply
  positions := h.positions

theorem setSupply (h : l.Alike m) (denom : String) (amount : Int) :
    (l.setSupply denom amount).Alike (m.setSupply denom amount) where
  balance := h.balance
  supply d := by rw [supply_setSupply, supply_setSupply, h.supply]
  positions := h.positions

end Alike

variable (address denom : String) (amount : Int)

theorem respects_credit : Action.Respects Alike (credit address denom amount) := by
  intro l m hr u l' h
  obtain ⟨hle, rfl⟩ := credit_eq_ok.1 h
  rw [hr.balance] at hle ⊢
  exact ⟨_, credit_eq_ok.2 ⟨hle, rfl⟩, hr.setBalance _ _ _⟩

theorem respects_debit : Action.Respects Alike (debit address denom amount) := by
  intro l m hr u l' h
  obtain ⟨hle, rfl⟩ := debit_eq_ok.1 h
  rw [hr.balance] at hle ⊢
  exact ⟨_, debit_eq_ok.2 ⟨hle, rfl⟩, hr.setBalance _ _ _⟩

theorem respects_mint : Action.Respects Alike (mint address denom amount) := by
  intro l m hr u l' h
  obtain ⟨hsupply, hbalance, rfl⟩ := mint_eq_ok.1 h
  rw [hr.supply] at hsupply ⊢
  rw [hr.balance] at hbalance ⊢
  exact ⟨_, mint_eq_ok.2 ⟨hsupply, hbalance, rfl⟩, (hr.setSupply _ _).setBalance _ _ _⟩

theorem respects_burn : Action.Respects Alike (burn address denom amount) := by
  intro l m hr u l' h
  obtain ⟨hbalance, hsupply, rfl⟩ := burn_eq_ok.1 h
  rw [hr.supply] at hsupply ⊢
  rw [hr.balance] at hbalance ⊢
  exact ⟨_, burn_eq_ok.2 ⟨hbalance, hsupply, rfl⟩, (hr.setBalance _ _ _).setSupply _ _⟩

theorem respects_burnAll (coins : List Coin) : Action.Respects Alike (burnAll address coins) := by
  induction coins with
  | nil => exact .pure ()
  | cons c rest ih => exact (respects_burn address c.denom c.amount).bind fun _ => ih

theorem respects_transfer (source target : String) (coins : List Coin) :
    Action.Respects Alike (transfer source target coins) := by
  induction coins with
  | nil => exact .pure ()
  | cons c rest ih =>
      exact (respects_debit source c.denom c.amount).bind fun _ =>
        (respects_credit target c.denom c.amount).bind fun _ => ih

theorem respects_lock (identifier receiver : String) (asset : Coin) (duration : Int) :
    Action.Respects Alike (lock identifier receiver asset duration) := by
  intro l m hr p l' h
  simp only [lock, position?, Action.bind_eq_ok, Action.get_eq_ok, Action.lift_eq_ok,
    Action.set_eq_ok, Action.pure_eq_ok] at h ⊢
  obtain ⟨_, _, ⟨rfl, rfl⟩, locked, _, ⟨hlocked, rfl⟩, _, _, rfl, rfl, rfl⟩ := h
  rw [hr.positions] at hlocked ⊢
  exact ⟨_, ⟨_, _, ⟨rfl, rfl⟩, locked, _, ⟨hlocked, rfl⟩, ⟨⟩, _, rfl, rfl, rfl⟩, hr.balance,
    hr.supply, rfl⟩

end Ledger

/-! ## Chains -/

namespace Chain

/-- The same settings, pools and count of named positions, and ledgers that are alike. -/
structure Alike (c c' : Chain) : Prop where
  config : c.state.config = c'.state.config
  registry : c.state.registry = c'.state.registry
  positions : c.positions = c'.positions
  ledger : c.state.ledger.Alike c'.state.ledger

theorem Alike.symm {c c' : Chain} (h : c.Alike c') : c'.Alike c :=
  ⟨h.config.symm, h.registry.symm, h.positions.symm, h.ledger.symm⟩

theorem Alike.savePool {c c' : Chain} (h : c.Alike c') (pool : Pool) :
    Alike { c with state := c.state.savePool pool } { c' with state := c'.state.savePool pool } :=
  ⟨h.config, congrArg (·.save pool) h.registry, h.positions, h.ledger⟩

theorem respects_withLedger {α : Type} {x : Action Ledger α}
    (hx : Action.Respects Ledger.Alike x) : Action.Respects Alike (withLedger x) := by
  intro c c' hr a d h
  obtain ⟨l, hl, rfl⟩ := withLedger_eq_ok.1 h
  obtain ⟨m, hm, halike⟩ := hx hr.ledger hl
  exact ⟨_, withLedger_eq_ok.2 ⟨m, hm, rfl⟩, hr.config, hr.registry, hr.positions, halike⟩

theorem respects_positionName (identifier : Option String) :
    Action.Respects Alike (positionName identifier) := by
  cases identifier with
  | some name => exact .pure name
  | none =>
      intro c c' hr name d h
      simp only [positionName, freshPosition, Action.bind_eq_ok, Action.modify_eq_ok,
        Action.get_eq_ok, Action.pure_eq_ok] at h ⊢
      obtain ⟨_, _, rfl, _, _, ⟨rfl, rfl⟩, rfl, rfl⟩ := h
      rw [hr.positions]
      exact ⟨_, ⟨⟨⟩, _, rfl, _, _, ⟨rfl, rfl⟩, rfl, rfl⟩, hr.config, hr.registry, rfl, hr.ledger⟩

theorem respects_applyEffect (e : Effect) : Action.Respects Alike (applyEffect e) := by
  cases e with
  | send recipient coins => exact respects_withLedger (Ledger.respects_transfer _ _ _)
  | burn coins => exact respects_withLedger (Ledger.respects_burnAll _ _)
  | mintShare denom amount recipient => exact respects_withLedger (Ledger.respects_mint _ _ _)
  | burnShare denom amount => exact respects_withLedger (Ledger.respects_burn _ _ _)
  | lock service expands receiver asset identifier duration =>
      refine (respects_withLedger (Ledger.respects_transfer _ _ _)).bind fun _ => ?_
      refine (respects_positionName identifier).bind fun name => ?_
      exact (respects_withLedger (Ledger.respects_lock _ _ _ _)).bind fun _ => .pure ()

theorem respects_applyEffects (effects : List Effect) :
    Action.Respects Alike (applyEffects effects) := by
  induction effects with
  | nil => exact .pure ()
  | cons e rest ih => exact (respects_applyEffect e).bind fun _ => ih

end Chain

/-! ## Deposits -/

namespace Deposit

/-- Deposits of the same amounts to the same end, in whatever order their coins come. -/
structure Alike (d d' : Deposit) : Prop where
  amounts : ∀ denom, d.amountOf denom = d'.amountOf denom
  receiver : d.receiver = d'.receiver
  slippage : d.slippageTolerance = d'.slippageTolerance
  duration : d.unlockingDuration = d'.unlockingDuration
  identifier : d.lockIdentifier = d'.lockIdentifier

theorem Alike.symm {d d' : Deposit} (h : d.Alike d') : d'.Alike d :=
  ⟨fun denom => (h.amounts denom).symm, h.receiver.symm, h.slippage.symm, h.duration.symm,
    h.identifier.symm⟩

/-- Alike deposits have the same outcome, their attributes apart. -/
theorem Alike.exists_run {d d' : Deposit} (h : d.Alike d') {s s' t : State}
    (hconfig : s.config = s'.config) (hledger : s.ledger.Alike s'.ledger) {pool : Pool}
    {o : Outcome} (hrun : d.run pool s = .ok o t) :
    ∃ o', d'.run pool s' = .ok o' (s'.savePool o'.pool) ∧ o'.pool = o.pool ∧
      o'.settlement.effects = o.settlement.effects := by
  have hamounts : d'.amounts pool = d.amounts pool :=
    List.map_congr_left fun denom _ => (h.amounts denom).symm
  have hsupply : s'.shareSupply pool = s.shareSupply pool := (hledger.supply _).symm
  have hissued : ∀ share, d'.shareEffects s' pool share = d.shareEffects s pool share := by
    intro share
    simp only [shareEffects, existingPosition, ← h.receiver, ← h.duration, ← h.identifier,
      ← hconfig, hledger.position?_eq]
  simp only [run, Action.get_bind, Action.lift_bind_eq_ok, State.keepPool_bind, Action.pure_eq_ok,
    hamounts, hsupply, hissued, ← hconfig, ← h.slippage] at hrun ⊢
  obtain ⟨deposits, hdeposits, balances, hbalances, share, hshare, u, hslippage, issued, hissued,
    assets, hassets, rfl, -⟩ := hrun
  exact ⟨_, ⟨deposits, hdeposits, balances, hbalances, share, hshare, u, hslippage, issued, hissued,
    assets, hassets, rfl, rfl⟩, rfl, rfl⟩

end Deposit

namespace Chain

def deliver (d : Deposit) (pool : Pool) : Action Chain (List Effect) := do
  let o ← withState (d.run pool)
  applyEffects o.settlement.effects
  pure o.settlement.effects

theorem deliver_eq_ok {d : Deposit} {pool : Pool} {c c' : Chain} {effects : List Effect} :
    deliver d pool c = .ok effects c' ↔ ∃ o,
      d.run pool c.state = .ok o (c.state.savePool o.pool) ∧ effects = o.settlement.effects ∧
        applyEffects o.settlement.effects { c with state := c.state.savePool o.pool } =
          .ok () c' := by
  simp only [deliver, Action.bind_eq_ok, withState_eq_ok, Action.pure_eq_ok]
  constructor
  · rintro ⟨o, _, ⟨s, hrun, rfl⟩, _, _, happly, rfl, rfl⟩
    obtain rfl := Deposit.state_of_run hrun
    exact ⟨o, hrun, rfl, happly⟩
  · rintro ⟨o, hrun, rfl, happly⟩
    exact ⟨o, _, ⟨_, hrun, rfl⟩, (), c', happly, rfl, rfl⟩

/-- Alike deposits on alike chains carry out the same effects and leave alike chains. -/
theorem exists_deliver {d d' : Deposit} (hd : d.Alike d') {c m c' : Chain} (hc : c.Alike m)
    {pool : Pool} {effects : List Effect} (h : deliver d pool c = .ok effects c') :
    ∃ m', deliver d' pool m = .ok effects m' ∧ c'.Alike m' := by
  obtain ⟨o, hrun, rfl, happly⟩ := deliver_eq_ok.1 h
  obtain ⟨o', hrun', hpool, heffects⟩ := hd.exists_run hc.config hc.ledger hrun
  obtain ⟨m', happly', halike⟩ :=
    respects_applyEffects o.settlement.effects (hc.savePool o.pool) happly
  refine ⟨m', deliver_eq_ok.2 ⟨o', hrun', heffects.symm, ?_⟩, halike⟩
  rw [heffects, hpool]
  exact happly'

end Chain

end MarketMaker
