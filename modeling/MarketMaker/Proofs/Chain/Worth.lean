import MarketMaker.Proofs.Chain.Delivery
import MarketMaker.Proofs.Operation.Worth

/-! # What stands behind a share, along a run

A pool of two assets on the constant product curve is followed through everything that can happen
to the chain. No event lowers the product of its balances per squared supply. -/

namespace MarketMaker

open Ledger

/-! ## The pool among the others -/

/-- A pool that has nothing to do with a denom of shares. -/
structure Pool.Avoids (p : Pool) (share : String) : Prop where
  issues : p.lpDenom ≠ share
  holds : share ∉ p.denoms

theorem Pool.Avoids.withAssets {p : Pool} {share : String} (h : p.Avoids share)
    {assets : List Coin} (hr : p.Refills assets) : (p.withAssets assets).Avoids share where
  issues := h.issues
  holds := by
    change share ∉ assets.map Coin.denom
    rw [hr.denoms]
    exact h.holds

namespace Registry

/-- What is kept under the pool's identifier is the pool, and no other has to do with its shares. -/
structure Hosts (r : Registry) (pool : Pool) : Prop where
  sound : r.Sound
  own : ∀ p, r.get? pool.identifier = some p →
    ∃ assets, pool.Refills assets ∧ p = pool.withAssets assets
  others : ∀ id p, r.get? id = some p → id ≠ pool.identifier → p.Avoids pool.lpDenom

def product (r : Registry) (pool : Pool) : Int :=
  match r.get? pool.identifier with
  | some p => p.product
  | none => 0

theorem product_of_get? {r : Registry} {pool p : Pool} (h : r.get? pool.identifier = some p) :
    r.product pool = p.product := by
  rw [product, h]

namespace Hosts

variable {r r' : Registry} {pool p : Pool} {o : Outcome}

theorem refilled (h : r.Hosts pool) (hr : r.Refilled r') : r'.Hosts pool where
  sound := hr.sound h.sound
  own p' hp' := by
    obtain ⟨p, assets, hp, hrefills, rfl⟩ := hr.origin hp'
    obtain ⟨old, hold, rfl⟩ := h.own p hp
    exact ⟨assets, ⟨hrefills.denoms.trans hold.denoms, hrefills.amounts⟩, rfl⟩
  others id p' hp' hne := by
    obtain ⟨p, assets, hp, hrefills, rfl⟩ := hr.origin hp'
    exact (h.others id p hp hne).withAssets hrefills

theorem product_nonneg (h : r.Hosts pool) (hpair : pool.ProductPair) : 0 ≤ r.product pool := by
  cases hp : r.get? pool.identifier with
  | none => rw [product, hp]
  | some p =>
      obtain ⟨assets, hrefills, rfl⟩ := h.own p hp
      rw [product_of_get? hp]
      exact Pool.product_nonneg (hpair.withAssets hrefills) (h.sound _ _ hp).2

/-- An outcome is the pool's own, or that of another, which leaves its product alone. -/
theorem own_or_other (h : r.Hosts pool) (hstored : r.get? p.identifier = some p)
    (ho : o.Refills p) :
    ((∃ assets, pool.Refills assets ∧ p = pool.withAssets assets) ∧
        r.product pool = p.product ∧ (r.save o.pool).product pool = o.pool.product) ∨
      (p.Avoids pool.lpDenom ∧ (r.save o.pool).product pool = r.product pool) := by
  by_cases hid : p.identifier = pool.identifier
  · have hget : r.get? pool.identifier = some p := hid ▸ hstored
    have hsaved : (r.save o.pool).get? pool.identifier = some o.pool := by
      rw [Registry.save, Table.get?_put, if_pos (ho.identifier.trans hid)]
    exact .inl ⟨h.own p hget, product_of_get? hget, product_of_get? hsaved⟩
  · have hne : o.pool.identifier ≠ pool.identifier := ho.identifier ▸ hid
    refine .inr ⟨h.others _ p hstored hid, ?_⟩
    rw [product, product, Registry.save, Table.get?_put, if_neg hne]

end Hosts

end Registry

/-! ## What outcomes do -/

section Outcomes

variable {s : State} {call : Call} {p pool : Pool} {o : Outcome}

theorem Deposit.Accepted.accrues_hosted {d : Deposit} {deposits balances : List Int} {share : Int}
    {issued : List Effect} (h : d.Accepted s p deposits balances share issued o)
    (hnonneg : ∀ c ∈ d.coins, 0 ≤ c.amount)
    (hstored : s.registry.get? p.identifier = some p) (hhosts : s.registry.Hosts pool)
    (hpair : pool.ProductPair) (hsupply : 0 ≤ s.shareSupply pool) :
    Accrues (s.registry.product pool) (s.shareSupply pool) ((s.registry.save o.pool).product pool)
      (s.shareSupply pool + Effect.issues o.settlement.effects pool.lpDenom) := by
  have hvalid := (hhosts.sound _ _ hstored).2
  rcases hhosts.own_or_other hstored (h.refills_pool hvalid hnonneg) with
    ⟨⟨assets, hassets, rfl⟩, hbefore, hafter⟩ | ⟨hother, hafter⟩
  · rw [hbefore, hafter]
    exact h.accrues hvalid (hpair.withAssets hassets) hnonneg hsupply
  · rw [h.issues_eq, if_neg hother.issues, Int.add_zero, hafter]
    exact .of_le hsupply (hhosts.product_nonneg hpair) (Int.le_refl _)

theorem Withdrawal.Paid.accrues_hosted {identifier : String} {amount : Int}
    (h : Withdrawal.Paid identifier s call p amount o) (hfunds : ∀ c ∈ call.funds, 0 ≤ c.amount)
    (hhosts : s.registry.Hosts pool) (hpair : pool.ProductPair)
    (hsupply : 0 ≤ s.shareSupply pool) :
    Accrues (s.registry.product pool) (s.shareSupply pool) ((s.registry.save o.pool).product pool)
      (s.shareSupply pool + Effect.issues o.settlement.effects pool.lpDenom) := by
  obtain ⟨hid, hvalid⟩ := hhosts.sound _ _ h.stored
  rcases hhosts.own_or_other (hid ▸ h.stored) (h.refills_pool hvalid hfunds) with
    ⟨⟨assets, hassets, rfl⟩, hbefore, hafter⟩ | ⟨hother, hafter⟩
  · rw [hbefore, hafter]
    exact h.accrues hvalid (hpair.withAssets hassets) (h.amount_pos hfunds)
  · rw [h.issues_eq, if_neg hother.issues, Int.neg_zero, Int.add_zero, hafter]
    exact .of_le hsupply (hhosts.product_nonneg hpair) (Int.le_refl _)

/-- A swap issues no shares and lowers no product. -/
theorem SwapOrder.Fills.product_le_hosted {order : SwapOrder} {offer : Coin} {sides : AssetPair}
    {q : SwapQuote} (h : order.Fills s call offer p sides q o)
    (hfunds : ∀ c ∈ call.funds, 0 ≤ c.amount) (hhosts : s.registry.Hosts pool)
    (hpair : pool.ProductPair) :
    s.registry.product pool ≤ (s.registry.save o.pool).product pool ∧
      Effect.issues o.settlement.effects pool.lpDenom = 0 := by
  have hissues : pool.lpDenom ∉ p.denoms → Effect.issues o.settlement.effects pool.lpDenom = 0 := by
    intro hshare
    have hne : order.askDenom ≠ pool.lpDenom := fun heq => hshare (heq ▸ h.pairs.ask_mem_denoms)
    rw [h.effects_eq, issues_effects _ _ _ h.sound.charges.burn, Coin.total_singleton, if_neg hne,
      Int.neg_zero]
  obtain ⟨hid, hvalid⟩ := hhosts.sound _ _ h.stored
  rcases hhosts.own_or_other (hid ▸ h.stored) (h.refills_pool hvalid hfunds) with
    ⟨⟨assets, hassets, rfl⟩, hbefore, hafter⟩ | ⟨hother, hafter⟩
  · have hoffer := hfunds offer (h.funds ▸ List.mem_singleton.2 rfl)
    have hown := hpair.withAssets hassets
    rw [hbefore, hafter]
    exact ⟨h.product_le hvalid hown hoffer, hissues hown.share⟩
  · rw [hafter]
    exact ⟨Int.le_refl _, hissues hother.holds⟩

theorem Operation.Settles.accrues {op : Operation} (h : op.Settles s call p o)
    (hhosts : s.registry.Hosts pool) (hpair : pool.ProductPair)
    (hfunds : ∀ c ∈ call.funds, 0 ≤ c.amount) (hsupply : 0 ≤ s.shareSupply pool) :
    Accrues (s.registry.product pool) (s.shareSupply pool) ((s.registry.save o.pool).product pool)
      (s.shareSupply pool + Effect.issues o.settlement.effects pool.lpDenom) := by
  have hstored := h.stored hhosts.sound
  have hrefilled := (h.refills_pool hhosts.sound hfunds).save hhosts.sound hstored
  cases h with
  | deposited stored brings run =>
      obtain ⟨_, _, _, _, haccepted⟩ := Deposit.accepted_of_run run
      refine haccepted.accrues_hosted (fun c hc => ?_) hstored hhosts hpair hsupply
      exact Int.le_of_lt (brings.amount_pos c hc)
  | withdrawn paid => exact paid.accrues_hosted hfunds hhosts hpair hsupply
  | swapped fills =>
      obtain ⟨hle, hissues⟩ := fills.product_le_hosted hfunds hhosts hpair
      rw [hissues, Int.add_zero]
      exact .of_le hsupply ((hhosts.refilled hrefilled).product_nonneg hpair) hle

end Outcomes

namespace Chain

/-! ## One event -/

/-- The chain keeps the pool and its shares apart, and every provision is coherent. -/
structure Hosts (c : Chain) (pool : Pool) : Prop where
  registry : c.state.registry.Hosts pool
  provisions : c.state.provisions.Each Provision.Coherent

def product (c : Chain) (pool : Pool) : Int := c.state.registry.product pool

def shares (c : Chain) (pool : Pool) : Int := c.state.shareSupply pool

/-- An event that leaves it to deposits to issue the pool's shares, and the pool in its place. -/
inductive Event.Spares (pool : Pool) : Event → Prop
  | execute {sender : String} {funds : List Coin} {op : Operation}
      (funds_valid : ∀ x ∈ funds, x.Valid) : Spares pool (.execute sender funds op)
  | runDeferred {h : HalfSwap} (offer_valid : h.offer.Valid) : Spares pool (.runDeferred h)
  | fund {address : String} {coins : List Coin} (coins_valid : ∀ x ∈ coins, x.Valid)
      (share_not_mem : pool.lpDenom ∉ coins.map Coin.denom) : Spares pool (.fund address coins)
  | addPool {other : Pool} (valid : other.Valid)
      (identifier_ne : other.identifier ≠ pool.identifier) (avoids : other.Avoids pool.lpDenom) :
      Spares pool (.addPool other)

variable {c c' : Chain} {pool : Pool}

theorem supply_after_addPool {other : Pool} {share : String} (h : share ∉ other.denoms)
    (c : Chain) :
    (after (perform (.addPool other)) c).state.ledger.supply share =
      c.state.ledger.supply share := by
  have hsome : share ∉ (other.assets.filter fun x => 0 < x.amount).map Coin.denom := fun hmem =>
    h ((List.filter_sublist.map Coin.denom).subset hmem)
  rw [after_perform_addPool, ledger_after_withLedger]
  exact supply_left_seed managerAddress hsome c.state.ledger

theorem Confirmed.accrues {h : HalfSwap} (hc : Confirmed h c c') (hhosts : c.Hosts pool)
    (hpair : pool.ProductPair) (hoffer : 0 ≤ h.offer.amount) (hsupply : 0 ≤ c.shares pool) :
    Accrues (c.product pool) (c.shares pool) (c'.product pool) (c'.shares pool) := by
  cases hc with
  | completed went traded waiting complete moved books =>
      rename_i c₁ p' sides q o o' p
      have hfunds : ∀ x ∈ (halfSwapCall h).funds, 0 ≤ x.amount := by
        intro x hx
        rw [List.mem_singleton.1 hx]
        exact hoffer
      obtain ⟨hle, hissues⟩ := traded.fills.product_le_hosted hfunds hhosts.registry hpair
      have hregistry : (Confirmation.taken c₁.state h.provision).registry =
          c.state.registry.save o.pool := traded.books.registry
      have hshares : (Confirmation.taken c₁.state h.provision).shareSupply pool =
          c.shares pool := by
        have hsupply := traded.moved.supply pool.lpDenom
        rw [hissues, Int.add_zero] at hsupply
        exact hsupply
      have hhosts₁ := hhosts.registry.refilled (traded.refilled hhosts.registry.sound hoffer)
      obtain ⟨_, hcompleted⟩ := Provision.completed_of_complete complete
      obtain ⟨_, _, _, _, haccepted⟩ := hcompleted.deposited
      have hcoherent := hhosts.provisions _ _ waiting
      have hstored := hcompleted.stored
      rw [hregistry] at hstored
      have hid := (hhosts₁.sound _ _ hstored).1
      have haccrues := haccepted.accrues_hosted (Provision.completion_nonneg hcoherent)
        (hregistry ▸ hid ▸ hstored) (hregistry ▸ hhosts₁) hpair (hshares ▸ hsupply)
      have hproduct' : c'.product pool =
          ((c.state.registry.save o.pool).save o'.pool).product pool := by
        rw [product, books.registry, State.savePool, hregistry]
      have hshares' : c'.shares pool = c.shares pool +
          Effect.issues o'.settlement.effects pool.lpDenom := by
        rw [← hshares]
        exact moved.supply pool.lpDenom
      rw [hregistry, hshares] at haccrues
      rw [hproduct', hshares']
      exact haccrues.of_le_left hle
  | refunded failed waiting moved books =>
      have hshares : c'.shares pool = c.shares pool := by
        have hmoved := moved.supply pool.lpDenom
        rwa [Int.add_zero] at hmoved
      have hproduct : c'.product pool = c.product pool := by
        rw [product, books.registry]
        rfl
      rw [hshares, hproduct]
      exact .of_le hsupply (hhosts.registry.product_nonneg hpair) (Int.le_refl _)

theorem Transacted.accrues {op : Operation} {call : Call} (h : Transacted op call c c')
    (hhosts : c.Hosts pool) (hpair : pool.ProductPair) (hfunds : ∀ x ∈ call.funds, 0 ≤ x.amount)
    (hsupply : 0 ≤ c.shares pool) :
    Accrues (c.product pool) (c.shares pool) (c'.product pool) (c'.shares pool) := by
  have hpaid : ∀ {l : Ledger}, c.state.ledger.Moved l (fundsGain call) (fun _ => 0) →
      l.supply pool.lpDenom = c.shares pool := fun paid => by
    rw [paid.supply, Int.add_zero, shares, State.shareSupply]
  cases h with
  | settled paid settles moved books =>
      rename_i l p o
      have hfunded : (c.funded l).state.shareSupply pool = c.shares pool := hpaid paid
      have haccrues := settles.accrues (s := (c.funded l).state) hhosts.registry hpair hfunds
        (hfunded ▸ hsupply)
      have hproduct : c'.product pool = (c.state.registry.save o.pool).product pool := by
        rw [product, books.registry, State.savePool]
      have hshares : c'.shares pool = c.shares pool +
          Effect.issues o.settlement.effects pool.lpDenom := by
        rw [← hfunded]
        exact moved.supply pool.lpDenom
      rw [hfunded] at haccrues
      rw [hproduct, hshares]
      exact haccrues
  | queued paid begins manual heq =>
      rename_i l order p coin sides q st
      have hshares : ((c.noted l call.transaction st.provision).enqueued st.swap).shares pool =
          c.shares pool := hpaid paid
      rw [heq, hshares]
      exact .of_le hsupply (hhosts.registry.product_nonneg hpair) (Int.le_refl _)
  | confirmed paid begins auto confirmed =>
      rename_i l order p coin sides q st
      have hnoted : (c.noted l call.transaction st.provision).Hosts pool :=
        ⟨hhosts.registry, hhosts.provisions.put _ begins.coherent⟩
      have hshares : (c.noted l call.transaction st.provision).shares pool = c.shares pool :=
        hpaid paid
      have haccrues := confirmed.accrues hnoted hpair begins.offer_nonneg (hshares ▸ hsupply)
      rw [hshares] at haccrues
      exact haccrues

theorem accrues_rollback (hhosts : c.Hosts pool) (hpair : pool.ProductPair)
    (hsupply : 0 ≤ c.shares pool) :
    Accrues (c.product pool) (c.shares pool) ((c'.rollback c.state).product pool)
      ((c'.rollback c.state).shares pool) :=
  .of_le hsupply (hhosts.registry.product_nonneg hpair) (Int.le_refl _)

theorem accrues_after (hhosts : c.Hosts pool) (hpair : pool.ProductPair)
    (hsupply : 0 ≤ c.shares pool) {e : Event} (he : e.Spares pool) :
    Accrues (c.product pool) (c.shares pool) ((after (perform e) c).product pool)
      ((after (perform e) c).shares pool) := by
  have hnonneg := hhosts.registry.product_nonneg hpair
  cases he with
  | execute funds_valid =>
      rename_i sender funds op
      rw [after_perform_execute]
      rcases after_execute sender funds op c with h | ⟨c', -, heq⟩
      · have hcounted : c.counted.Hosts pool := ⟨hhosts.registry, hhosts.provisions⟩
        exact h.accrues hcounted hpair (fun x hx => (funds_valid x hx).2.1) hsupply
      · rw [heq]
        exact accrues_rollback hhosts hpair hsupply
  | runDeferred offer_valid =>
      rename_i h
      rw [after_perform_runDeferred]
      rcases after_runDeferred h c with ⟨-, hc⟩ | ⟨-, c', -, heq⟩
      · exact hc.accrues hhosts hpair offer_valid.2.1 hsupply
      · rw [heq]
        exact accrues_rollback hhosts hpair hsupply
  | fund coins_valid share_not_mem =>
      rename_i address coins
      have hproduct : (after (perform (.fund address coins)) c).product pool = c.product pool := by
        rw [product, (sameBooks_fund address coins c).registry, product]
      have hshares : (after (perform (.fund address coins)) c).shares pool = c.shares pool := by
        rw [shares, State.shareSupply, perform, fund, ledger_after_withLedger]
        exact supply_left_mintAll address share_not_mem c.state.ledger
      rw [hproduct, hshares]
      exact .of_le hsupply hnonneg (Int.le_refl _)
  | addPool valid identifier_ne avoids =>
      rename_i other
      have hproduct : (after (perform (.addPool other)) c).product pool = c.product pool := by
        rw [product, registry_after_addPool, Registry.product, Registry.save, Table.get?_put,
          if_neg identifier_ne]
        rfl
      have hshares : (after (perform (.addPool other)) c).shares pool = c.shares pool := by
        rw [shares, State.shareSupply, supply_after_addPool avoids.holds]
        rfl
      rw [hproduct, hshares]
      exact .of_le hsupply hnonneg (Int.le_refl _)

/-! ## Runs -/

theorem hosts_empty {config : Config} {autoConfirm : Bool} {l : Ledger} (pool : Pool) :
    ((empty config autoConfirm).funded l).Hosts pool where
  registry := ⟨Registry.sound_empty, fun _ hp => (nomatch hp), fun _ _ hp => (nomatch hp)⟩
  provisions _ _ hp := nomatch hp

theorem hosts_after (hhosts : c.Hosts pool) {e : Event} (he : e.Spares pool) :
    (after (perform e) c).Hosts pool := by
  have hsound := hhosts.registry.sound
  refine ⟨?_, each_provision_after hhosts.provisions e fun _ begins => begins.coherent⟩
  cases he with
  | execute funds_valid =>
      rename_i sender funds op
      rw [after_perform_execute]
      rcases after_execute sender funds op c with h | ⟨c', -, heq⟩
      · exact hhosts.registry.refilled (h.refilled hsound fun x hx => (funds_valid x hx).2.1)
      · rw [heq]
        exact hhosts.registry
  | runDeferred offer_valid =>
      rename_i h
      rw [after_perform_runDeferred]
      rcases after_runDeferred h c with ⟨-, hc⟩ | ⟨-, c', -, heq⟩
      · have hconsumed := consumed_of_confirmed hc hsound offer_valid.2.1
          fun p hp => hhosts.provisions _ _ hp
        exact hhosts.registry.refilled hconsumed.registry
      · rw [heq]
        exact hhosts.registry
  | fund coins_valid share_not_mem =>
      rename_i address coins
      rw [(sameBooks_fund address coins c).registry]
      exact hhosts.registry
  | addPool valid identifier_ne avoids =>
      rename_i other
      rw [registry_after_addPool]
      refine ⟨hsound.save valid, ?_, ?_⟩
      · intro p hp
        rw [Registry.save, Table.get?_put, if_neg identifier_ne] at hp
        exact hhosts.registry.own p hp
      · intro id p hp hne
        rw [Registry.save, Table.get?_put] at hp
        split at hp
        · cases hp
          exact avoids
        · exact hhosts.registry.others id p hp hne

theorem hosts_after_addPool (hhosts : c.Hosts pool) (hpool : pool.Valid) :
    (after (perform (.addPool pool)) c).Hosts pool := by
  refine ⟨?_, provisions_after_addPool pool c ▸ hhosts.provisions⟩
  rw [registry_after_addPool]
  refine ⟨hhosts.registry.sound.save hpool, ?_, ?_⟩
  · intro p hp
    rw [Registry.save, Table.get?_put, if_pos rfl, Option.some.injEq] at hp
    exact ⟨pool.assets, .refl hpool, hp ▸ rfl⟩
  · intro id p hp hne
    rw [Registry.save, Table.get?_put, if_neg (Ne.symm hne)] at hp
    exact hhosts.registry.others id p hp hne

theorem hosts_run (hhosts : c.Hosts pool) {events : List Event}
    (h : ∀ e ∈ events, e.Spares pool) : (run events c).Hosts pool :=
  run_invariant (fun c => c.Hosts pool) (fun hc he => hosts_after hc he) h hhosts

/-- Where the square of the supply does not exceed the product, it stays so. -/
theorem sq_shares_le_run (hhosts : c.Hosts pool) (hpair : pool.ProductPair)
    (hsupply : 0 ≤ c.shares pool) (hsq : c.shares pool ^ 2 ≤ c.product pool) {events : List Event}
    (h : ∀ e ∈ events, e.Spares pool) :
    (run events c).shares pool ^ 2 ≤ (run events c).product pool := by
  let invariant (c : Chain) :=
    c.Hosts pool ∧ 0 ≤ c.shares pool ∧ c.shares pool ^ 2 ≤ c.product pool
  have preserves {c : Chain} {e : Event} (hc : invariant c) (he : e.Spares pool) :
      invariant (after (perform e) c) := by
    obtain ⟨hhosts, hsupply, hsq⟩ := hc
    have haccrues := accrues_after hhosts hpair hsupply he
    exact ⟨hosts_after hhosts he, haccrues.supply, haccrues.sq_le hsupply hsq⟩
  exact (run_invariant invariant preserves h ⟨hhosts, hsupply, hsq⟩).2.2

/-- A pool of two assets on the constant product curve is added to a chain and anything happens,
except that its shares are issued otherwise than by deposits. Then no event lowers the product of
its balances per squared supply, and if there were no shares at first, the square of their supply
never exceeds the product. -/
theorem share_worth_never_falls {config : Config} {autoConfirm : Bool} {l : Ledger} {pool : Pool}
    (hpair : pool.ProductPair) (hpool : pool.Valid) {before events : List Event}
    (hbefore : ∀ e ∈ before, e.Spares pool) (hevents : ∀ e ∈ events, e.Spares pool) :
    let start := run (before ++ [.addPool pool]) ((empty config autoConfirm).funded l)
    let now := run events start
    (∀ e : Event, e.Spares pool → 0 < now.shares pool →
        now.product pool * (after (perform e) now).shares pool ^ 2 ≤
          (after (perform e) now).product pool * now.shares pool ^ 2) ∧
      (start.shares pool = 0 → now.shares pool ^ 2 ≤ now.product pool) := by
  intro start now
  have hstart : start.Hosts pool := by
    have hempty : ((empty config autoConfirm).funded l).Hosts pool := hosts_empty pool
    have hsetup := hosts_run hempty hbefore
    have hadded := hosts_after_addPool hsetup hpool
    rw [← run_nil (after _ _), ← run_cons, ← run_append] at hadded
    exact hadded
  constructor
  · intro e he hpos
    exact (accrues_after (hosts_run hstart hevents) hpair (Int.le_of_lt hpos) he).grows hpos
  · intro hzero
    refine sq_shares_le_run hstart hpair (Int.le_of_eq hzero.symm) ?_ hevents
    rw [hzero]
    exact hstart.registry.product_nonneg hpair

/-- A pool that waits for its first deposit. -/
def newPool : Pool where
  identifier := "uom.uusd.2"
  assets := [⟨"uom", 0⟩, ⟨"uusd", 0⟩]
  curve := .constantProduct
  lpDenom := "factory/uom-uusd-2"
  fees := { swap := ⟨3000000000000000⟩, burn := ⟨1000000000000000⟩ }
  decimals := [6, 6]

def firstDeposit : List Event :=
  [ .fund "alice" [⟨"uom", 1000000⟩, ⟨"uusd", 4000000⟩],
    .fund "bob" [⟨"uom", 10007⟩],
    .execute "alice" [⟨"uom", 1000000⟩, ⟨"uusd", 4000000⟩] (.deposit { pool := "uom.uusd.2" }) ]

def laterSwap : Event :=
  .execute "bob" [⟨"uom", 10007⟩]
    (.swap { pool := "uom.uusd.2", askDenom := "uusd", maxSpread := some ⟨500000000000000000⟩ })

theorem share_worth_after_firstDeposit :
    let start := run ([] ++ [.addPool newPool]) ((empty {} false).funded .empty)
    let now := run firstDeposit start
    0 < now.shares newPool ∧ start.shares newPool = 0 ∧
      now.product newPool * (after (perform laterSwap) now).shares newPool ^ 2 ≤
        (after (perform laterSwap) now).product newPool * now.shares newPool ^ 2 ∧
      now.shares newPool ^ 2 ≤ now.product newPool := by
  intro start now
  have hpair : newPool.ProductPair := ⟨rfl, rfl, by decide⟩
  have hevents : ∀ e ∈ firstDeposit, Event.Spares newPool e := by
    intro e he
    simp only [firstDeposit, List.mem_cons, List.not_mem_nil, or_false] at he
    rcases he with rfl | rfl | rfl
    · exact .fund (by decide) (by decide)
    · exact .fund (by decide) (by decide)
    · exact .execute (by decide)
  have hswap : Event.Spares newPool laterSwap := .execute (by decide)
  have hpos : 0 < now.shares newPool := by decide +kernel
  have hzero : start.shares newPool = 0 := by decide +kernel
  obtain ⟨hgrows, hsq⟩ := @share_worth_never_falls {} false .empty newPool hpair (by decide) []
    firstDeposit (fun _ he => absurd he List.not_mem_nil) hevents
  exact ⟨hpos, hzero, hgrows laterSwap hswap hpos, hsq hzero⟩

end Chain

end MarketMaker
