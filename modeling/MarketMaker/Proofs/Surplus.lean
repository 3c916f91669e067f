import MarketMaker.Proofs.Chain.Sound

/-! # What the manager holds beyond its records

The surplus of a denom is what the manager holds of it less what all pools record. Every way in
which a transaction can end changes it by an amount that is known exactly. -/

namespace MarketMaker

open Ledger

/-- No pool issues its shares in a denom. -/
def Registry.NotShare (r : Registry) (denom : String) : Prop :=
  ∀ id p, r.get? id = some p → p.lpDenom ≠ denom

theorem Registry.NotShare.refilled {r r' : Registry} {denom : String} (h : r.NotShare denom)
    (hr : r.Refilled r') : r'.NotShare denom := by
  intro id p' hp'
  obtain ⟨p, assets, hp, -, rfl⟩ := hr.origin hp'
  exact h id p hp

namespace Chain

def surplus (c : Chain) (denom : String) : Int :=
  c.state.held denom - c.state.registry.reserves denom

variable {c c' : Chain} {denom : String}

/-! ## Ends of a transaction -/

theorem fundsGain_manager {call : Call} (h : call.sender ≠ managerAddress) (denom : String) :
    fundsGain call managerAddress denom = Coin.total denom call.funds := by
  rw [fundsGain, gainOf_self, gainOf_of_ne h, Int.sub_zero]

/-- What is settled at once leaves the surplus alone. -/
theorem surplus_of_settled {s : State} {l : Ledger} {call : Call} {op : Operation} {pool : Pool}
    {o : Outcome} (hs : c.Sound) (hregistry : s.registry = c.state.registry)
    (hconfig : s.config = c.state.config) (hcall : call.FromUser) (hpays : op.PaysUser)
    (hshare : c.state.registry.NotShare denom)
    (paid : c.state.ledger.Moved l (fundsGain call) (fun _ => 0))
    (settles : op.Settles s call pool o)
    (moved : l.Moved c'.state.ledger (Effect.gains o.settlement.effects)
      (Effect.issues o.settlement.effects))
    (books : SameBooks { c with state := c.state.savePool o.pool } c') :
    c'.surplus denom = c.surplus denom := by
  have hsound : s.registry.Sound := hregistry ▸ hs.registry
  have hstored : c.state.registry.get? pool.identifier = some pool :=
    hregistry ▸ settles.stored hsound
  have hbalanced := settles.balanced hsound hcall (hconfig ▸ hs.collector) hpays
  have hreserve := hbalanced.reserve denom (hshare _ _ hstored)
  have hsaved := hbalanced.refills.reserves_save hstored denom
  have hpaid := paid.balance managerAddress denom
  have hmoved := moved.balance managerAddress denom
  rw [fundsGain_manager hcall.sender_ne] at hpaid
  rw [surplus, surplus, books.registry, State.held, State.held, hmoved, hpaid]
  dsimp only [State.savePool]
  rw [hsaved, hreserve]
  omega

/-- Once the funds of a deposit of one asset have come, they are surplus. -/
theorem surplus_noted {call : Call} {l : Ledger}
    (hsender : call.sender ≠ managerAddress)
    (paid : c.state.ledger.Moved l (fundsGain call) (fun _ => 0)) (p : Provision) (denom : String) :
    (c.noted l call.transaction p).surplus denom =
      c.surplus denom + Coin.total denom call.funds := by
  have hpaid := paid.balance managerAddress denom
  rw [fundsGain_manager hsender] at hpaid
  rw [surplus, surplus, State.held, State.held]
  dsimp only [noted]
  rw [hpaid]
  omega

/-- A completed deposit turns the surplus of its coins into reserves, and records the expected
return where the trade paid the actual one. -/
theorem surplus_of_completed {h : HalfSwap} {c₁ : Chain} {pool : Pool} {sides : AssetPair}
    {q : SwapQuote} {o o' : Outcome} {p : Provision} {s' : State}
    (traded : Traded h { c with pending := c.pending.erase h } c₁ pool sides q o)
    (complete : p.complete h.provision (Confirmation.taken c₁.state h.provision) = .ok o' s')
    (moved : c₁.state.ledger.Moved c'.state.ledger (Effect.gains o'.settlement.effects)
      (Effect.issues o'.settlement.effects))
    (books : SameBooks
      { c₁ with state := (Confirmation.taken c₁.state h.provision).savePool o'.pool } c')
    (hregistry : c.state.registry.Sound)
    (hcollector : c.state.config.feeCollector ≠ managerAddress)
    (hshare : c.state.registry.NotShare denom) (hm : h.Matches p) (hp : p.Sound) :
    c'.surplus denom = c.surplus denom - Coin.total denom [p.wholeOffer] -
      (Coin.total denom [⟨p.askDenom, p.expectedReturn⟩] -
        Coin.total denom [⟨p.askDenom, q.returned⟩]) := by
  have hoffer : 0 ≤ h.offer.amount := hm.offer ▸ hp.offerHalf
  have hstored := traded.stored hregistry
  have hfirst := traded.refills_pool hregistry hoffer
  have hbalanced := traded.balanced hregistry hm hp complete
  have hne : o.pool.lpDenom ≠ denom := hfirst.lpDenom ▸ hshare _ _ hstored
  have hrecorded := traded.reserve_eq hcollector denom
  have hdeposited := hbalanced.reserve denom hne
  have hsaved := hfirst.reserves_save hstored denom
  have hsaved' : ((c.state.registry.save o.pool).save o'.pool).reserves denom =
      (c.state.registry.save o.pool).reserves denom + o'.pool.reserve denom -
        o.pool.reserve denom := by
    refine hbalanced.refills.reserves_save ?_ denom
    rw [Registry.save, Table.get?_put, if_pos rfl]
  have hheld := moved.balance managerAddress denom
  have hheld' := traded.moved.balance managerAddress denom
  have hr : c'.state.registry = (c.state.registry.save o.pool).save o'.pool := by
    rw [books.registry]
    dsimp only [State.savePool, Confirmation.taken]
    rw [traded.books.registry]
    rfl
  rw [Provision.total_completion] at hdeposited
  rw [hm.ask, hm.offer] at hrecorded
  rw [surplus, surplus, State.held, State.held, hr, hsaved', hsaved, hheld, hheld',
    Provision.total_wholeOffer]
  dsimp only at *
  omega

/-- A deposit that is paid back takes its coins out of the surplus. -/
theorem surplus_of_refunded {h : HalfSwap} {p : Provision} (hp : p.Sound)
    (moved : c.state.ledger.Moved c'.state.ledger (Effect.gains (p.refund h.provision).effects)
      (fun _ => 0))
    (books : SameBooks
      { c with pending := c.pending.erase h, state := Confirmation.taken c.state h.provision } c')
    (denom : String) : c'.surplus denom = c.surplus denom - Coin.total denom [p.wholeOffer] := by
  have hheld := moved.balance managerAddress denom
  rw [Provision.gains_refund, gainOf_of_ne hp.sender_ne, gainOf_self] at hheld
  have hr : c'.state.registry = c.state.registry := books.registry
  rw [surplus, surplus, State.held, State.held, hr, hheld]
  omega

theorem surplus_rollback (hr : c'.state.registry = c.state.registry)
    (hl : c'.state.ledger = c.state.ledger) : c'.surplus denom = c.surplus denom := by
  rw [surplus, surplus, State.held, State.held, hr, hl]

/-! ## Other events -/

/-- Coins for another address do not touch the surplus, also where funding fails half-way. -/
theorem surplus_after_fund {address : String} (h : address ≠ managerAddress) (coins : List Coin)
    (c : Chain) (denom : String) :
    (after (perform (.fund address coins)) c).surplus denom = c.surplus denom := by
  have hledger := ledger_after_withLedger (mintAll address coins) c
  have hheld : ((mintAll address coins).left c.state.ledger).balance managerAddress denom = _ :=
    balance_left_mintAll (.inl h) c.state.ledger
  rw [surplus, surplus, State.held, State.held, (sameBooks_fund address coins c).registry, perform,
    fund, hledger, hheld]

/-- A pool that is added brings what it records, and frees what a record that it replaces held. -/
theorem surplus_of_addPool {pool : Pool} (hvalid : pool.Valid) {u : Unit}
    (h : addPool pool c = .ok u c') (denom : String) :
    c'.surplus denom = c.surplus denom +
      c.state.registry.measureAt (fun p => p.reserve denom) pool.identifier := by
  obtain ⟨books, moved⟩ := added_of_addPool h
  have hheld := moved.balance managerAddress denom
  rw [gainOf_self, Coin.total_filter_pos denom fun x hx => (hvalid.assets_valid x hx).2.1] at hheld
  rw [surplus, surplus, State.held, State.held, books.registry, hheld, Registry.reserves,
    Registry.reserves]
  dsimp only [State.savePool]
  rw [Registry.save, Table.sumBy_put]
  dsimp only [Pool.reserve]
  omega

/-- A pool that is added under a name of its own brings just what it records. -/
theorem surplus_after_addPool {pool : Pool} (hvalid : pool.Valid)
    (hadded : ∃ c', addPool pool c = .ok () c')
    (hfresh : c.state.registry.get? pool.identifier = none) (denom : String) :
    (after (perform (.addPool pool)) c).surplus denom = c.surplus denom := by
  obtain ⟨c', hadd⟩ := hadded
  have hafter : after (perform (.addPool pool)) c = c' := after_eq_of_ok hadd
  rw [hafter, surplus_of_addPool hvalid hadd, Table.measureAt_of_none hfresh, Int.add_zero]

/-! ## Denoms that are no shares -/

theorem notShare_after (hs : c.Sound) {e : Event} (he : c.Orderly e)
    (hshare : c.state.registry.NotShare denom)
    (hadded : ∀ pool, e = .addPool pool → pool.lpDenom ≠ denom) :
    (after (perform e) c).state.registry.NotShare denom := by
  by_cases hadd : ∃ pool, e = .addPool pool
  · obtain ⟨pool, rfl⟩ := hadd
    cases he with
    | addPool valid added =>
        obtain ⟨c', hc'⟩ := added
        obtain ⟨hb, -⟩ := added_of_addPool hc'
        have hafter : after (perform (.addPool pool)) c = c' := after_eq_of_ok hc'
        rw [hafter, hb.registry]
        intro id p hp
        rw [State.savePool, Registry.save, Table.get?_put] at hp
        split at hp
        · cases hp
          exact hadded pool rfl
        · exact hshare id p hp
  · have hne : ∀ pool, e ≠ .addPool pool := fun pool h => hadd ⟨pool, h⟩
    exact hshare.refilled (refilled_after hs he hne)

/-- A denom that no pool of a run issues its shares in stays free of shares. -/
theorem notShare_run {events : List Event} (hs : c.Sound) (h : c.OrderlyRun events)
    (hshare : c.state.registry.NotShare denom)
    (hadded : ∀ pool, .addPool pool ∈ events → pool.lpDenom ≠ denom) :
    (run events c).state.registry.NotShare denom := by
  induction events generalizing c with
  | nil => exact hshare
  | cons e rest ih =>
      have hnext := notShare_after hs h.1 hshare fun pool he =>
        hadded pool (he ▸ List.mem_cons_self)
      rw [run_cons]
      exact ih (sound_after hs h.1) h.2 hnext fun pool hp => hadded pool (List.mem_cons_of_mem e hp)

end Chain

end MarketMaker
