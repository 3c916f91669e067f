import MarketMaker.Proofs.Chain.Ending

/-! # What operations write

An operation keeps its one change at its end, after all that can fail. So one that fails has changed
nothing, and one that succeeds has changed amounts of one pool at most. Only a confirmation changes
something before its checks: it takes up its provision. -/

namespace MarketMaker

/-! ## Records of one pool -/

/-- A later record of a pool: nothing but amounts differs, and it is a valid pool. -/
structure Pool.Renewed (p p' : Pool) : Prop where
  identifier : p'.identifier = p.identifier
  curve : p'.curve = p.curve
  fees : p'.fees = p.fees
  lpDenom : p'.lpDenom = p.lpDenom
  decimals : p'.decimals = p.decimals
  denoms : p'.denoms = p.denoms
  valid : p'.Valid

theorem Pool.Refills.renewed {p : Pool} {assets : List Coin} (h : p.Refills assets)
    (hp : p.Valid) : p.Renewed (p.withAssets assets) :=
  ⟨rfl, rfl, rfl, rfl, rfl, h.denoms, hp.withAssets h⟩

namespace Registry

variable {r r' : Registry} {name : String}

/-- No pool but the one of a name differs, and that one has a later record of itself. -/
structure RenewedAt (name : String) (r r' : Registry) : Prop where
  others : ∀ id, id ≠ name → r'.get? id = r.get? id
  own : ∀ p, r.get? name = some p → ∃ p', r'.get? name = some p' ∧ p.Renewed p'
  absent : r.get? name = none → r'.get? name = none

theorem Refilled.renewedAt (h : r.Refilled r') (hr : r.Sound)
    (hothers : ∀ id, id ≠ name → r'.get? id = r.get? id) : r.RenewedAt name r' where
  others := hothers
  own p hp := by
    obtain ⟨assets, hrefills, hp'⟩ := h.kept name p hp
    exact ⟨_, hp', hrefills.renewed (hr _ _ hp).2⟩
  absent := h.absent name

theorem Sound.renewedAt_self (hr : r.Sound) (name : String) : r.RenewedAt name r :=
  (Refilled.refl hr).renewedAt hr fun _ _ => rfl

theorem RenewedAt.save {pool : Pool} (h : r.Refilled (r.save pool)) (hr : r.Sound)
    (hname : pool.identifier = name) : r.RenewedAt name (r.save pool) := by
  apply h.renewedAt hr
  intro id hid
  rw [Registry.save, Table.get?_put, hname, if_neg (Ne.symm hid)]

end Registry

/-! ## Operations -/

def Operation.poolName : Operation → String
  | deposit order => order.pool
  | withdraw pool => pool
  | swap order => order.pool

variable {op : Operation} {s s' : State} {call : Call}

theorem Operation.Settles.stored_name {pool : Pool} {o : Outcome} (h : op.Settles s call pool o) :
    s.registry.get? op.poolName = some pool := by
  cases h with
  | deposited stored brings run => exact stored
  | withdrawn paid => exact paid.stored
  | swapped fills => exact fills.stored

theorem Operation.Ran.renewedAt {r : Response} (h : op.Ran s call r s')
    (hpools : s.registry.Sound) (hfunds : ∀ x ∈ call.funds, 0 ≤ x.amount) :
    s.registry.RenewedAt op.poolName s'.registry := by
  cases h with
  | settled settles =>
      have hrefills := settles.refills_pool hpools hfunds
      have hname := hrefills.identifier.trans (hpools _ _ settles.stored_name).1
      exact .save (hrefills.save hpools (settles.stored hpools)) hpools hname
  | begun begins => exact hpools.renewedAt_self _

/-! ## Confirmations -/

/-- A provision whose second phase deposits no amount below zero. -/
def Provision.DepositsCoins (p : Provision) : Prop := ∀ x ∈ p.completion.coins, 0 ≤ x.amount

theorem Confirmation.Taken.renewedAt {c : Confirmation} {settlement : Settlement}
    (h : c.Taken s settlement s') (hpools : s.registry.Sound)
    (hprovisions : s.provisions.Each Provision.DepositsCoins) :
    ∃ p, s.provisions.get? c.provision = some p ∧
      s.registry.RenewedAt p.request.pool s'.registry := by
  cases h with
  | completed success waiting complete =>
      obtain ⟨pool, hcompleted⟩ := Provision.completed_of_complete complete
      obtain ⟨_, _, _, _, haccepted⟩ := hcompleted.deposited
      have hcoins := hprovisions _ _ waiting
      have hstored := hcompleted.stored
      obtain ⟨hid, hvalid⟩ := hpools _ _ hstored
      have hname := (haccepted.refills_pool hvalid hcoins).identifier.trans hid
      exact ⟨_, waiting, .save (hcompleted.refilled hcoins hpools) hpools hname⟩
  | refunded failure waiting => exact ⟨_, waiting, hpools.renewedAt_self _⟩

/-- An operation that fails leaves the state as it was, and a confirmation that fails all but its
own provision, although nothing is undone. One that succeeds changes nothing in the pools but
amounts of the one pool that it names, whose record stays valid. -/
theorem Operation.writes_own_pool (op : Operation) (call : Call) (confirmation : Confirmation)
    (s : State) :
    (∀ e s', op.run call s = .error e s' → s' = s) ∧
      (∀ e s', confirmation.run s = .error e s' →
        s' = { s with provisions := s.provisions.erase confirmation.provision }) ∧
      (s.registry.Sound →
        ((∀ x ∈ call.funds, x.Valid) → ∀ r s', op.run call s = .ok r s' →
          s.registry.RenewedAt op.poolName s'.registry) ∧
        (s.provisions.Each Provision.DepositsCoins → ∀ settlement s',
          confirmation.run s = .ok settlement s' →
            ∃ p, s.provisions.get? confirmation.provision = some p ∧
              s.registry.RenewedAt p.request.pool s'.registry)) := by
  refine ⟨op.keepsOnError_run call s, ?_, fun hpools => ⟨?_, ?_⟩⟩
  · intro e s' h
    exact Confirmation.state_of_error h
  · intro hfunds r s' h
    exact (ran_of_run h).renewedAt hpools fun x hx => (hfunds x hx).2.1
  · intro hprovisions settlement s' h
    exact (Confirmation.taken_of_run h).renewedAt hpools hprovisions

namespace Chain

/-- The state of `driftedRun`, in which a provision waits and the balances have drifted. -/
def driftedState : State := (run driftedRun (empty {} false)).state

/-- A swap of 1000 in the pool of `driftedRun`, under a limit on its spread. -/
def carolsSwap (maxSpread : Ratio) : Operation :=
  .swap { pool := "o.first", askDenom := "uusd", maxSpread := some maxSpread }

def carolsCall : Call := ⟨"carol", [⟨"uom", 1000⟩], "tx-3"⟩

/-- Carol's swap is refused for its spread or goes through; the confirmation fails because the
balances have drifted, and would go through as a refund. -/
theorem writes_own_pool_driftedState :
    (∃ e, (carolsSwap .zero).run carolsCall driftedState = .error e driftedState) ∧
      (∃ e, Confirmation.run ⟨"tx-1", true⟩ driftedState =
        .error e { driftedState with provisions := driftedState.provisions.erase "tx-1" }) ∧
      (∃ r s, (carolsSwap half).run carolsCall driftedState = .ok r s ∧
        driftedState.registry.RenewedAt "o.first" s.registry) ∧
      ∃ settlement s p, Confirmation.run ⟨"tx-1", false⟩ driftedState = .ok settlement s ∧
        driftedState.provisions.get? "tx-1" = some p ∧
        driftedState.registry.RenewedAt p.request.pool s.registry := by
  have hregular := ((Reachable.empty {} false).run valid_driftedRun).regular
  have hcoins : driftedState.provisions.Each Provision.DepositsCoins :=
    fun id p hp => Provision.completion_nonneg (hregular.provisions id p hp)
  have hfunds : ∀ x ∈ carolsCall.funds, x.Valid := by decide
  obtain ⟨hrefused, hdrifted, -⟩ :=
    (carolsSwap .zero).writes_own_pool carolsCall ⟨"tx-1", true⟩ driftedState
  obtain ⟨-, -, hsound⟩ :=
    (carolsSwap half).writes_own_pool carolsCall ⟨"tx-1", false⟩ driftedState
  obtain ⟨hswapped, hrefunded⟩ := hsound hregular.registry
  obtain ⟨e, s, he⟩ := Action.exists_error (x := (carolsSwap .zero).run carolsCall)
    (s := driftedState) (by decide +kernel)
  obtain ⟨e', s', he'⟩ := Action.exists_error (x := Confirmation.run ⟨"tx-1", true⟩)
    (s := driftedState) (by decide +kernel)
  obtain ⟨r, t, hr⟩ := Action.exists_ok (x := (carolsSwap half).run carolsCall)
    (s := driftedState) (by decide +kernel)
  obtain ⟨settlement, t', ht'⟩ := Action.exists_ok (x := Confirmation.run ⟨"tx-1", false⟩)
    (s := driftedState) (by decide +kernel)
  obtain ⟨p, hp, hrenewed⟩ := hrefunded hcoins settlement t' ht'
  exact ⟨⟨e, hrefused e s he ▸ he⟩, ⟨e', hdrifted e' s' he' ▸ he'⟩,
    ⟨r, t, hr, hswapped hfunds r t hr⟩, settlement, t', p, ht', hp, hrenewed⟩

end Chain

end MarketMaker
