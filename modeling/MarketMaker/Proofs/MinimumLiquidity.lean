import MarketMaker.Proofs.Chain.Reachable
import MarketMaker.Proofs.Chain.Worth
import MarketMaker.Proofs.Surplus

/-! # The minimum that stays locked

With the first shares of a pool the manager gets a minimum of its own. Shares also pass through the
manager when they are withdrawn or locked in a position. Yet whatever users do, the minimum stays
where it is, so the shares are never used up again. -/

namespace MarketMaker

open Ledger

/-! ## Shares of the manager -/

namespace Ledger

/-- There are shares only where the manager holds the minimum of them. -/
def HoldsMinimum (l : Ledger) (share : String) : Prop :=
  l.supply share = 0 ∨ Share.minimumLiquidity ≤ l.balance managerAddress share

/-- The manager loses no shares, and with the first of them it gains the minimum. -/
structure Retains (share : String) (l l' : Ledger) : Prop where
  held : l.balance managerAddress share ≤ l'.balance managerAddress share
  first : l.supply share = 0 → l'.supply share ≠ 0 →
    l.balance managerAddress share + Share.minimumLiquidity ≤ l'.balance managerAddress share

variable {share : String} {l l₁ l' : Ledger}

namespace Retains

theorem of_eq (hbalance : l'.balance managerAddress share = l.balance managerAddress share)
    (hsupply : l'.supply share = l.supply share) : Retains share l l' where
  held := Int.le_of_eq hbalance.symm
  first hzero hne := absurd (hsupply.trans hzero) hne

theorem trans (h : Retains share l l₁) (h' : Retains share l₁ l') : Retains share l l' where
  held := Int.le_trans h.held h'.held
  first := by
    intro hzero hne
    have hheld := h.held
    have hheld' := h'.held
    by_cases hmiddle : l₁.supply share = 0
    · have hfirst := h'.first hmiddle hne
      omega
    · have hfirst := h.first hzero hmiddle
      omega

/-- A movement that takes no shares from the manager, and gives it the minimum where it issues
some while there are none. -/
theorem of_moved {gain : String → String → Int} {issue : String → Int} (h : l.Moved l' gain issue)
    (hgain : 0 ≤ gain managerAddress share)
    (hissue : l.supply share = 0 → issue share ≠ 0 →
      Share.minimumLiquidity ≤ gain managerAddress share) : Retains share l l' where
  held := by
    rw [h.balance]
    omega
  first := by
    intro hzero hne
    rw [h.supply, hzero, Int.zero_add] at hne
    have hminimum := hissue hzero hne
    rw [h.balance]
    omega

theorem holdsMinimum (h : Retains share l l') (hs : l.Sound) (hl : l.HoldsMinimum share) :
    l'.HoldsMinimum share := by
  have hheld := h.held
  have hnonneg := hs.nonneg managerAddress share
  by_cases hzero : l'.supply share = 0
  · exact .inl hzero
  · right
    rcases hl with hnone | hminimum
    · have hfirst := h.first hnone hzero
      omega
    · omega

end Retains

end Ledger

def Registry.Lacks (r : Registry) (denom : String) : Prop :=
  ∀ id p, r.get? id = some p → denom ∉ p.denoms

theorem Registry.Lacks.refilled {r r' : Registry} {denom : String} (h : r.Lacks denom)
    (hr : r.Refilled r') : r'.Lacks denom := by
  intro id p' hp'
  obtain ⟨p, assets, hp, hrefills, rfl⟩ := hr.origin hp'
  change denom ∉ assets.map Coin.denom
  rw [hrefills.denoms]
  exact h id p hp

theorem Registry.Lacks.save {r : Registry} {denom : String} (h : r.Lacks denom) {pool : Pool}
    (hpool : denom ∉ pool.denoms) : (r.save pool).Lacks denom := by
  intro id p hp
  rw [Registry.save, Table.get?_put] at hp
  split at hp
  · cases hp
    exact hpool
  · exact h id p hp

/-! ## Operations -/

section Operations

variable {share : String} {l l' : Ledger} {s : State} {call : Call} {pool : Pool} {o : Outcome}

/-- The funds of a user take nothing from the manager. -/
theorem Call.FromUser.retains (h : call.FromUser) (share : String)
    (paid : l.Moved l' (Chain.fundsGain call) (fun _ => 0)) : Retains share l l' := by
  apply Retains.of_moved paid
  · rw [Chain.fundsGain_manager h.sender_ne]
    exact Coin.total_nonneg h.funds_nonneg
  · intro _ hissue
    exact absurd rfl hissue

/-- The first shares of a pool come with the minimum. -/
theorem Deposit.Accepted.retains {d : Deposit} {deposits balances : List Int} {amount : Int}
    {issued : List Effect} (h : d.Accepted s pool deposits balances amount issued o)
    (share : String) (moved : s.ledger.Moved l' (Effect.gains o.settlement.effects)
      (Effect.issues o.settlement.effects)) : Retains share s.ledger l' := by
  have hshares : 0 ≤ single (d.holder s.config) ⟨pool.lpDenom, amount⟩ managerAddress share :=
    single_nonneg _ (Int.le_of_lt h.share_pos) managerAddress share
  apply Retains.of_moved moved
  · exact Int.le_trans hshares (h.single_le_gains managerAddress share)
  · intro hzero hissue
    rw [h.issues_eq] at hissue
    have hdenom : pool.lpDenom = share := by
      by_contra hne
      rw [if_neg hne] at hissue
      exact hissue rfl
    have hfirst : s.shareSupply pool = 0 := by
      rw [State.shareSupply, hdenom]
      exact hzero
    have hminimum : single managerAddress ⟨pool.lpDenom, Share.minimumLiquidity⟩ managerAddress
        share = Share.minimumLiquidity := by
      simp [single, hdenom]
    rw [h.gains_eq, if_pos hfirst, hminimum]
    omega

theorem SwapOrder.Fills.retains {order : SwapOrder} {offer : Coin} {sides : AssetPair}
    {q : SwapQuote} (h : order.Fills s call offer pool sides q o) (hshare : share ∉ pool.denoms)
    (moved : l.Moved l' (Effect.gains o.settlement.effects)
      (Effect.issues o.settlement.effects)) : Retains share l l' := by
  have hne : order.askDenom ≠ share := by
    rintro rfl
    exact hshare h.pairs.ask_mem_denoms
  apply Retains.of_eq
  · rw [moved.balance, h.effects_eq, SwapOrder.gains_effects _ _ _ h.sound]
    simp [single, hne]
  · rw [moved.supply, h.effects_eq, SwapOrder.issues_effects _ _ _ h.sound.charges.burn,
      Coin.total_singleton, if_neg hne]
    omega

/-- The shares that a withdrawal burns are those that came with the call. -/
theorem Withdrawal.Paid.retains {identifier : String} {amount : Int}
    (h : Withdrawal.Paid identifier s call pool amount o) (hcall : call.FromUser)
    (hshare : share ∉ pool.denoms) (paid : l.Moved s.ledger (Chain.fundsGain call) (fun _ => 0))
    (moved : s.ledger.Moved l' (Effect.gains o.settlement.effects)
      (Effect.issues o.settlement.effects)) : Retains share l l' := by
  have hpayments : Coin.total share (payments pool (s.shareSupply pool) amount) = 0 := by
    apply Coin.total_of_not_mem
    intro hmem
    obtain ⟨x, hx, rfl⟩ := List.mem_map.1 hmem
    obtain ⟨asset, hasset, rfl⟩ := List.mem_map.1 (List.mem_filter.1 hx).1
    exact hshare (List.mem_map.2 ⟨asset, hasset, rfl⟩)
  apply Retains.of_moved (paid.trans moved)
  · rw [Chain.fundsGain_manager hcall.sender_ne, h.gains_eq, h.funds, gainOf_of_ne hcall.sender_ne,
      gainOf_self, hpayments, single_self]
    omega
  · intro hzero hissue
    -- Shares are burned only where there are some.
    rw [h.issues_eq, Int.zero_add] at hissue
    have hdenom : pool.lpDenom = share := by
      by_contra hne
      rw [if_neg hne] at hissue
      exact hissue rfl
    have hsupply := paid.supply share
    have hpos := h.amount_pos hcall.funds_nonneg
    have hle := h.amount_le
    rw [State.shareSupply, hdenom, hsupply] at hle
    omega

/-- No operation of a user takes shares from the manager. -/
theorem Operation.Settles.retains {op : Operation} (h : op.Settles s call pool o)
    (hcall : call.FromUser) (hlacks : s.registry.Lacks share)
    (paid : l.Moved s.ledger (Chain.fundsGain call) (fun _ => 0))
    (moved : s.ledger.Moved l' (Effect.gains o.settlement.effects)
      (Effect.issues o.settlement.effects)) : Retains share l l' := by
  have hfunds := hcall.retains share paid
  cases h with
  | deposited stored brings run =>
      obtain ⟨_, _, _, _, haccepted⟩ := Deposit.accepted_of_run run
      exact hfunds.trans (haccepted.retains share moved)
  | withdrawn paid' => exact paid'.retains hcall (hlacks _ _ paid'.stored) paid moved
  | swapped fills => exact hfunds.trans (fills.retains (hlacks _ _ fills.stored) moved)

end Operations

namespace Chain

variable {share : String} {c c' : Chain}

/-! ## One event -/

/-- Neither an asset of a pool nor the offer of a provision is in a denom of shares. -/
structure KeepsApart (share : String) (c : Chain) : Prop where
  lacks : c.state.registry.Lacks share
  offers : c.state.provisions.Each fun p => p.offerDenom ≠ share

/-- An event of users that neither issues shares nor brings a pool that has them as an asset. -/
inductive Event.LeavesShares (share : String) : Event → Prop
  | execute {sender : String} {funds : List Coin} {op : Operation}
      (sender_ne : sender ≠ managerAddress) (funds_valid : ∀ x ∈ funds, x.Valid) :
      LeavesShares share (.execute sender funds op)
  | runDeferred {h : HalfSwap} (offer_valid : h.offer.Valid) : LeavesShares share (.runDeferred h)
  | fund {address : String} {coins : List Coin} (coins_valid : ∀ x ∈ coins, x.Valid)
      (share_not_mem : share ∉ coins.map Coin.denom) : LeavesShares share (.fund address coins)
  | addPool {pool : Pool} (valid : pool.Valid) (share_not_mem : share ∉ pool.denoms) :
      LeavesShares share (.addPool pool)

theorem Event.LeavesShares.valid {e : Event} (h : e.LeavesShares share) : e.Valid := by
  cases h with
  | execute sender_ne funds_valid => exact .execute funds_valid
  | runDeferred offer_valid => exact .runDeferred offer_valid
  | fund coins_valid share_not_mem => exact .fund coins_valid
  | addPool valid share_not_mem => exact .addPool valid

theorem Finished.retains {h : HalfSwap} {p : Provision} (hf : Finished h p c c')
    (hlacks : c.state.registry.Lacks share) (hp : p.offerDenom ≠ share) :
    Retains share c.state.ledger c'.state.ledger := by
  cases hf with
  | completed went fills traded config_eq stored accepted carried =>
      have htraded := fills.retains (hlacks _ _ fills.stored) traded.moved
      exact htraded.trans (accepted.retains share carried.moved)
  | refunded failed carried registry_eq =>
      apply Retains.of_eq
      · rw [carried.moved.balance, p.gains_refund]
        simp [gainOf, Coin.total_singleton, Provision.wholeOffer, hp]
      · rw [carried.moved.supply]
        exact Int.add_zero _

theorem Delivered.retains {call : Call} {op : Operation} (h : Delivered call c c' op)
    (hcall : call.FromUser) (hlacks : c.state.registry.Lacks share) :
    Retains share c.state.ledger c'.state.ledger := by
  cases h with
  | settled paid settles carried books =>
      exact settles.retains hcall hlacks (moved_of_transfer paid) carried.moved
  | queued paid begins manual eq =>
      rw [eq]
      exact hcall.retains share (moved_of_transfer paid)
  | finished paid begins auto finished dropped =>
      have hfunds := hcall.retains share (moved_of_transfer paid)
      refine hfunds.trans (finished.retains hlacks ?_)
      rw [begins.started.provision_eq]
      intro hoffer
      exact hlacks _ _ begins.stored (hoffer ▸ begins.started.pairs.offer_mem_denoms)

/-- No event takes shares from the manager. -/
theorem retains_after (ha : c.KeepsApart share) {e : Event} (he : e.LeavesShares share) :
    Retains share c.state.ledger (after (perform e) c).state.ledger := by
  cases he with
  | execute sender_ne funds_valid =>
      rename_i sender funds op
      rw [after_perform_execute]
      rcases delivered_after_execute sender funds op c with h | ⟨c', -, heq⟩
      · exact h.retains (nextCall_fromUser sender_ne funds_valid) ha.lacks
      · rw [heq]
        exact .of_eq rfl rfl
  | runDeferred offer_valid =>
      rename_i h
      rw [after_perform_runDeferred]
      rcases finished_after_runDeferred h c with ⟨p, hp, hfinished⟩ | ⟨c', -, heq⟩
      · exact hfinished.retains ha.lacks (ha.offers _ p hp)
      · rw [heq]
        exact .of_eq rfl rfl
  | fund coins_valid share_not_mem =>
      rename_i address coins
      rw [perform, fund, ledger_after_withLedger]
      exact .of_eq (balance_left_mintAll (.inr share_not_mem) _)
        (supply_left_mintAll address share_not_mem _)
  | addPool valid share_not_mem =>
      rename_i pool
      have hsome : share ∉ (pool.assets.filter fun x => 0 < x.amount).map Coin.denom := fun hmem =>
        share_not_mem ((List.filter_sublist.map Coin.denom).subset hmem)
      refine .of_eq ?_ (supply_after_addPool share_not_mem c)
      rw [after_perform_addPool, ledger_after_withLedger]
      exact balance_left_seed (.inr hsome) _

theorem keepsApart_after (hc : c.Regular) (ha : c.KeepsApart share) {e : Event}
    (he : e.LeavesShares share) : (after (perform e) c).KeepsApart share where
  lacks := by
    rcases hc.refilled_or_added he.valid with hrefilled | ⟨pool, rfl, hadded⟩
    · exact ha.lacks.refilled hrefilled
    · cases he with
      | addPool valid share_not_mem =>
          rw [hadded]
          exact ha.lacks.save share_not_mem
  offers := by
    apply each_provision_after ha.offers e
    intro _ _ _ _ _ _ _ _ _ _ begins
    rw [begins.started.provision_eq]
    intro hoffer
    exact ha.lacks _ _ begins.stored (hoffer ▸ begins.started.pairs.offer_mem_denoms)

/-! ## Runs -/

/-- A chain that can be reached, and that keeps a denom of shares apart and its minimum locked. -/
structure KeepsMinimum (share : String) (c : Chain) : Prop where
  reachable : c.Reachable
  apart : c.KeepsApart share
  minimum : c.state.ledger.HoldsMinimum share

theorem keepsMinimum_empty (share : String) (config : Config) (autoConfirm : Bool) :
    (empty config autoConfirm).KeepsMinimum share where
  reachable := .empty config autoConfirm
  apart := ⟨fun _ _ hp => (nomatch hp), fun _ _ hp => nomatch hp⟩
  minimum := .inl rfl

theorem keepsMinimum_after (h : c.KeepsMinimum share) {e : Event} (he : e.LeavesShares share) :
    (after (perform e) c).KeepsMinimum share where
  reachable := .step h.reachable he.valid
  apart := keepsApart_after h.reachable.regular h.apart he
  minimum := (retains_after h.apart he).holdsMinimum h.reachable.regular.ledger h.minimum

theorem keepsMinimum_run (h : c.KeepsMinimum share) {events : List Event}
    (he : ∀ e ∈ events, e.LeavesShares share) : (run events c).KeepsMinimum share :=
  run_invariant (fun c => c.KeepsMinimum share) (fun hc he => keepsMinimum_after hc he) he h

/-- The manager loses no shares along a run. -/
theorem held_le_run (h : c.KeepsMinimum share) {events : List Event}
    (he : ∀ e ∈ events, e.LeavesShares share) :
    c.state.held share ≤ (run events c).state.held share := by
  let invariant (c' : Chain) := c'.KeepsMinimum share ∧ c.state.held share ≤ c'.state.held share
  have preserves {c' : Chain} {e : Event} (hc : invariant c') (he : e.LeavesShares share) :
      invariant (after (perform e) c') := by
    have hretains := retains_after hc.1.apart he
    exact ⟨keepsMinimum_after hc.1 he, Int.le_trans hc.2 hretains.held⟩
  exact (run_invariant invariant preserves he ⟨h, Int.le_refl _⟩).2

/-- A denom of shares is issued by deposits only, and is no asset of a pool. Then after any run
there are none of the shares, or the manager holds the minimum of them; and once there are some,
no more events, and so no withdrawal, leave less than the minimum of them. -/
theorem minimum_stays_locked {config : Config} {autoConfirm : Bool} {events : List Event}
    (he : ∀ e ∈ events, e.LeavesShares share) :
    let c := run events (empty config autoConfirm)
    (c.state.ledger.supply share = 0 ∨ Share.minimumLiquidity ≤ c.state.held share) ∧
      ∀ more : List Event, (∀ e ∈ more, e.LeavesShares share) → c.state.ledger.supply share ≠ 0 →
        Share.minimumLiquidity ≤ (run more c).state.ledger.supply share := by
  intro c
  have hempty := keepsMinimum_empty share config autoConfirm
  have hkeeps : c.KeepsMinimum share := keepsMinimum_run hempty he
  refine ⟨hkeeps.minimum, ?_⟩
  intro more hmore hsome
  have hminimum : Share.minimumLiquidity ≤ c.state.held share := by
    rcases hkeeps.minimum with hnone | hminimum
    · exact absurd hnone hsome
    · exact hminimum
  have hheld := held_le_run hkeeps hmore
  have hledger := (keepsMinimum_run hkeeps hmore).reachable.regular.ledger
  have hsupply := hledger.balance_le_supply managerAddress share
  exact Int.le_trans hminimum (Int.le_trans hheld hsupply)

def mintedRun : List Event :=
  [ .addPool newPool, .fund "alice" [⟨"uom", 1000000⟩, ⟨"uusd", 4000000⟩],
    .execute "alice" [⟨"uom", 1000000⟩, ⟨"uusd", 4000000⟩] (.deposit { pool := "uom.uusd.2" }) ]

def withdrawAll : Event :=
  .execute "alice" [⟨"factory/uom-uusd-2", 1999000⟩] (.withdraw "uom.uusd.2")

theorem minimum_left_by_withdrawAll :
    let c := run mintedRun (empty {} true)
    c.state.ledger.supply "factory/uom-uusd-2" = 2000000 ∧
      Share.minimumLiquidity ≤ c.state.held "factory/uom-uusd-2" ∧
        (after (perform withdrawAll) c).state.ledger.supply "factory/uom-uusd-2" = 1000 ∧
          Share.minimumLiquidity ≤
            (run [withdrawAll] c).state.ledger.supply "factory/uom-uusd-2" := by
  intro c
  have hminted : ∀ e ∈ mintedRun, e.LeavesShares "factory/uom-uusd-2" := by
    simp only [mintedRun, List.forall_mem_cons, List.not_mem_nil, false_implies, implies_true,
      and_true]
    exact ⟨.addPool (by decide) (by decide), .fund (by decide) (by decide),
      .execute (by decide) (by decide)⟩
  have hmore : ∀ e ∈ [withdrawAll], e.LeavesShares "factory/uom-uusd-2" := by
    intro e he
    rw [List.mem_singleton.1 he]
    exact .execute (by decide) (by decide)
  have hsupply : c.state.ledger.supply "factory/uom-uusd-2" = 2000000 := by decide +kernel
  have hleft : (after (perform withdrawAll) c).state.ledger.supply "factory/uom-uusd-2" = 1000 := by
    decide +kernel
  have hsome : c.state.ledger.supply "factory/uom-uusd-2" ≠ 0 := by
    rw [hsupply]
    decide
  obtain ⟨hheld, hlater⟩ := @minimum_stays_locked _ {} true mintedRun hminted
  exact ⟨hsupply, hheld.resolve_left hsome, hleft, hlater _ hmore hsome⟩

end Chain

end MarketMaker
