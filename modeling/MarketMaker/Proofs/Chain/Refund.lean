import MarketMaker.Proofs.Chain.SwapThenDeposit

/-! # Half-swaps that fail

On a chain that confirms at once, the half-swap of a deposit runs in the deposit's own transaction.
If it fails, nothing is restored from before the deposit: the funds have been moved and a provision
kept. It is the refund, made up from the two halves of the provision, that brings the chain back. -/

namespace MarketMaker

open Ledger

namespace Provision

/-- A refund is one payment of the manager, of the whole deposit. -/
theorem payAll_refund {p : Provision} (hp : p.Coherent) (id : String) :
    Effect.PayAll p.offerDenom (p.refund id).effects p.wholeOffer.amount := by
  have hnonneg : 0 ≤ p.wholeOffer.amount := Int.add_nonneg hp.offerHalf hp.keptOffer
  have hone : Effect.PayAll p.offerDenom (p.refund id).effects (p.wholeOffer.amount + 0) :=
    .cons (.send p.sender) hnonneg .nil
  rwa [Int.add_zero] at hone

end Provision

namespace Chain

variable {c c' : Chain} {sender : String} {funds : List Coin} {order : DepositOrder}

/-! ## The second phase of a failed half-swap -/

/-- The chain in which a failed half-swap has been undone: the half-swap is out of the queue. -/
structure Undone (h : HalfSwap) (c c₁ : Chain) : Prop where
  ran : tryTrade h { c with pending := c.pending.erase h } = .ok false c₁
  books : SameBooks { c with pending := c.pending.erase h } c₁
  ledger : c₁.state.ledger = c.state.ledger
  count : c₁.positions = c.positions

/-- Whatever makes a trade fail, it is undone and the run goes on. -/
theorem exists_undone {h : HalfSwap}
    (hfailed : (trade h).succeeds { c with pending := c.pending.erase h } = false) :
    ∃ c₁, Undone h c c₁ := by
  obtain ⟨success, c₁, htry⟩ := exists_tryTrade h { c with pending := c.pending.erase h }
  have hcount := count_of_tryTrade htry
  cases attempted_of_tryTrade htry with
  | traded went traded => rw [went] at hfailed; cases hfailed
  | undone failed books ledger => exact ⟨c₁, htry, books, ledger, hcount⟩

/-- What the run of a failed half-swap leaves: its provision is paid back and gone. -/
structure PaidBack (h : HalfSwap) (p : Provision) (c c' : Chain) : Prop where
  config : c'.state.config = c.state.config
  registry : c'.state.registry = c.state.registry
  provisions : c'.state.provisions = c.state.provisions.erase h.provision
  same : c.SamePositions c'
  moved : c.state.ledger.Moved c'.state.ledger
    (fun a d => gainOf p.sender [p.wholeOffer] a d - gainOf managerAddress [p.wholeOffer] a d)
    (fun _ => 0)

/-- A half-swap that fails is paid back, as far as the manager holds what the provision has. -/
theorem exists_paidBack {h : HalfSwap} {p : Provision}
    (hfailed : (trade h).succeeds { c with pending := c.pending.erase h } = false)
    (hwaiting : c.state.provisions.get? h.provision = some p) (hp : p.Coherent)
    (hsound : c.state.ledger.Sound) (hheld : p.wholeOffer.amount ≤ c.state.held p.offerDenom) :
    ∃ settlement c', runHalfSwap h c = .ok settlement c' ∧ PaidBack h p c c' := by
  obtain ⟨c₁, hundone⟩ := exists_undone hfailed
  have hbooks := hundone.books
  have hconfirm : Confirmation.run ⟨h.provision, false⟩ c₁.state =
      .ok (p.refund h.provision) (Confirmation.taken c₁.state h.provision) := by
    rw [Confirmation.run_eq, hbooks.provisions, hwaiting]
    rfl
  have hpays := Provision.payAll_refund hp h.provision
  have hholds : p.wholeOffer.amount ≤ c₁.state.held p.offerDenom := by
    rwa [State.held, hundone.ledger]
  obtain ⟨c', hrefunded⟩ := exists_applyEffects_of_payAll
    (c := { c₁ with state := Confirmation.taken c₁.state h.provision }) hpays
    (hundone.ledger ▸ hsound) hholds
  have hkept := sameBooks_of_applyEffects hrefunded
  obtain ⟨hcount, hpositions⟩ := positions_of_payAll hpays hrefunded
  refine ⟨_, c', runHalfSwap_eq_ok.2 ⟨false, c₁, _, hundone.ran, hconfirm, hrefunded⟩,
    hkept.config.trans hbooks.config, hkept.registry.trans hbooks.registry,
    hkept.provisions.trans (congrArg (·.erase h.provision) hbooks.provisions),
    ⟨hcount.trans hundone.count, hpositions.trans (congrArg Ledger.positions hundone.ledger)⟩, ?_⟩
  rw [← hundone.ledger]
  exact (moved_of_applyEffects hrefunded).congr (p.gains_refund h.provision) fun _ => rfl

/-! ## The whole transaction -/

/-- The first phase of a deposit: the funds were moved, and the deposit asks for a half-swap. -/
structure Asks (c : Chain) (sender : String) (funds : List Coin) (order : DepositOrder)
    (l : Ledger) (r : Response) (s : State) (h : HalfSwap) : Prop where
  paid : Ledger.transfer sender managerAddress funds c.state.ledger = .ok () l
  run : order.run (c.nextCall sender funds) (c.counted.funded l).state = .ok r s
  messages : r.messages = [.halfSwap h]

/-- The trade of a half-swap fails in the state that a first phase has left. -/
def TradeFails (c : Chain) (s : State) (h : HalfSwap) : Prop :=
  (trade h).succeeds { c.counted with state := s, pending := c.pending.erase h } = false

instance (s : State) (h : HalfSwap) : Decidable (c.TradeFails s h) :=
  inferInstanceAs (Decidable (_ = false))

/-- A deposit gets through its first phase, and the half-swap that it asks for fails. -/
def HalfSwapFails (c : Chain) (sender : String) (funds : List Coin) (order : DepositOrder) : Prop :=
  ∃ l r s h, c.Asks sender funds order l r s h ∧ c.TradeFails s h

/-- Whether the half-swap of a deposit fails. -/
def halfSwapFails (c : Chain) (sender : String) (funds : List Coin) (order : DepositOrder) : Bool :=
  match Ledger.transfer sender managerAddress funds c.state.ledger with
  | .error _ _ => false
  | .ok _ l =>
    match order.run (c.nextCall sender funds) (c.counted.funded l).state with
    | .ok ⟨[.halfSwap h], _⟩ s => decide (c.TradeFails s h)
    | _ => false

theorem halfSwapFails_iff :
    c.halfSwapFails sender funds order = true ↔ c.HalfSwapFails sender funds order := by
  unfold halfSwapFails
  constructor
  · intro h
    split at h
    · cases h
    · rename_i l hpaid
      split at h
      · rename_i swap _ s hrun
        exact ⟨l, _, s, swap, ⟨hpaid, hrun, rfl⟩, of_decide_eq_true h⟩
      · cases h
  · rintro ⟨l, ⟨_, attributes⟩, s, swap, ⟨hpaid, hrun, rfl⟩, hfails⟩
    simp only [hpaid, hrun, hfails, decide_true]

instance : Decidable (c.HalfSwapFails sender funds order) := decidable_of_iff _ halfSwapFails_iff

/-- An operation that asks for a half-swap has begun a deposit of one asset. -/
theorem begins_of_run {s s' : State} {call : Call} {r : Response} {h : HalfSwap}
    (hrun : order.run call s = .ok r s') (hasks : r.messages = [.halfSwap h]) :
    ∃ pool coin sides q st, order.Begins s call pool coin sides q st ∧ h = st.swap ∧
      s' = { s with provisions := s.provisions.put call.transaction st.provision } := by
  have hran : (Operation.deposit order).Ran s call r s' := Operation.ran_of_run hrun
  cases hran with
  | settled settles =>
      rename_i o
      have hsettled : o.settlement.effects.map Message.effect = [.halfSwap h] := hasks
      have heffect : Message.halfSwap h ∈ o.settlement.effects.map Message.effect :=
        hsettled ▸ List.mem_singleton.2 rfl
      obtain ⟨e, -, he⟩ := List.mem_map.1 heffect
      cases he
  | begun begins =>
      cases hasks
      exact ⟨_, _, _, _, _, begins, rfl, rfl⟩

section Begun

variable {l : Ledger} {pool : Pool} {coin : Coin} {sides : AssetPair} {q : SwapQuote}
  {st : Provision.Start}

/-- The manager holds the deposit of a user, since it was paid. -/
theorem wholeOffer_le_held
    (begins : order.Begins (c.counted.funded l).state (c.nextCall sender funds) pool coin sides q
      st)
    (hcall : (c.nextCall sender funds).FromUser) (hsound : c.state.ledger.Sound)
    (hpaid : Ledger.transfer sender managerAddress funds c.state.ledger = .ok () l) :
    st.provision.wholeOffer.amount ≤ l.balance managerAddress st.provision.offerDenom := by
  have hsender : sender ≠ managerAddress := hcall.sender_ne
  have hnonneg := hsound.nonneg managerAddress st.provision.offerDenom
  have hwhole := begins.total_wholeOffer hcall st.provision.offerDenom
  have hmoved := (moved_of_transfer hpaid).balance managerAddress st.provision.offerDenom
  rw [Coin.total_singleton, if_pos (by rfl)] at hwhole
  rw [gainOf_self, gainOf_of_ne hsender] at hmoved
  change _ = Coin.total _ funds at hwhole
  omega

/-- What the funds moved, the refund moves back. -/
theorem alike_of_paidBack
    (begins : order.Begins (c.counted.funded l).state (c.nextCall sender funds) pool coin sides q
      st)
    (hcall : (c.nextCall sender funds).FromUser)
    (hpaid : Ledger.transfer sender managerAddress funds c.state.ledger = .ok () l)
    (hback : PaidBack st.swap st.provision
      (c.counted.noted l (c.nextCall sender funds).transaction st.provision) c') :
    c.Alike c' where
  config := hback.config.symm
  registry := hback.registry.symm
  positions := hback.same.count.symm
  ledger :=
    { balance := by
        intro a d
        have hsent : st.provision.sender = sender := by
          rw [begins.started.provision_eq]
          rfl
        have hwhole : Coin.total d [st.provision.wholeOffer] = Coin.total d funds :=
          begins.total_wholeOffer hcall d
        have hmoved := ((moved_of_transfer hpaid).trans hback.moved).balance a d
        simp only [gainOf, hsent, hwhole] at hmoved
        omega
      supply := by
        intro d
        have hmoved := ((moved_of_transfer hpaid).trans hback.moved).supply d
        omega
      positions := (hback.same.positions.trans (positions_of_transfer hpaid)).symm }

end Begun

/-- On a chain that confirms at once, a deposit of one asset whose half-swap fails, for whatever
reason, is carried out and leaves every pool, balance, supply and position as it was. -/
theorem exists_execute_of_halfSwapFails (hreachable : c.Reachable) (hauto : c.autoConfirm = true)
    (hsender : sender ≠ managerAddress) (hfunds : ∀ x ∈ funds, x.Valid)
    (hfails : c.HalfSwapFails sender funds order) :
    ∃ r c', execute sender funds (.deposit order) c = .ok r c' ∧ c.Alike c' ∧
      c'.state.provisions = c.state.provisions := by
  obtain ⟨l, r, s, h, ⟨hpaid, hrun, hmessages⟩, hfailed⟩ := hfails
  obtain ⟨pool, coin, sides, q, st, begins, rfl, rfl⟩ := begins_of_run hrun hmessages
  have hregular := hreachable.regular
  have hcall : (c.nextCall sender funds).FromUser := ⟨hsender, hfunds⟩
  have hsound : l.Sound := hregular.ledger.transfer hcall.funds_nonneg hpaid
  have hname := Transacted.swap_provision (c := c.counted) begins
  have hwaiting : (c.counted.noted l (c.nextCall sender funds).transaction
      st.provision).state.provisions.get? st.swap.provision = some st.provision := by
    rw [hname]
    exact Table.get?_put.trans (if_pos rfl)
  obtain ⟨settlement, c', hhalf, hback⟩ := exists_paidBack
    (c := c.counted.noted l (c.nextCall sender funds).transaction st.provision) hfailed hwaiting
    begins.coherent hsound (wholeOffer_le_held begins hcall hregular.ledger hpaid)
  refine ⟨r, c', execute_eq_ok.2 (transact_eq_ok.2 ⟨l, _, hpaid, hrun, ?_⟩),
    alike_of_paidBack begins hcall hpaid hback, ?_⟩
  · rw [hmessages, applyMessages_halfSwap]
    refine (if_pos hauto).trans ?_
    exact Action.bind_eq_ok.2 ⟨settlement, c', hhalf, rfl⟩
  · rw [hback.provisions, hname]
    exact Table.erase_put_of_none begins.fresh _

/-- No spread is allowed, so the half-swap of an odd amount in two coins of one denom fails. -/
theorem exists_execute_of_halfSwapFails_split :
    oddChain.HalfSwapFails "alice" [⟨"uom", 20000⟩, ⟨"uom", 30001⟩]
        { pool := "uom.uusd.1", maxSpread := some ⟨0⟩ } ∧
      ∃ r c', execute "alice" [⟨"uom", 20000⟩, ⟨"uom", 30001⟩]
          (.deposit { pool := "uom.uusd.1", maxSpread := some ⟨0⟩ }) oddChain = .ok r c' ∧
        oddChain.Alike c' ∧ c'.state.provisions = oddChain.state.provisions := by
  have hreachable : oddChain.Reachable :=
    .step (.step (.empty {} true) (.addPool (by decide))) (.fund (by decide))
  have hfails : oddChain.HalfSwapFails "alice" [⟨"uom", 20000⟩, ⟨"uom", 30001⟩]
      { pool := "uom.uusd.1", maxSpread := some ⟨0⟩ } := by decide +kernel
  exact ⟨hfails,
    exists_execute_of_halfSwapFails hreachable rfl (by decide) (by decide) hfails⟩

end Chain

end MarketMaker
