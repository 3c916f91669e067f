import MarketMaker.Proofs.Chain.SingleSided
import MarketMaker.Proofs.Conservation

/-! # A deposit of one asset is a swap and a deposit of two

The depositor can swap one half of the coin and deposit the other half with the return. That way
comes half-way exactly if the deposit of one coin does, and both have the same left to do. -/

namespace MarketMaker

open Ledger

namespace Chain

variable {c c' m m' : Chain} {sender : String} {order : DepositOrder} {coin : Coin} {ask : String}
  {pool : Pool} {sides : AssetPair} {q : SwapQuote}

/-! ## The swap and the deposit of two coins -/

/-- A swap is settled by the effects of its outcome. -/
theorem execute_swap_eq_ok {funds : List Coin} {swap : SwapOrder} {r : Response} :
    execute sender funds (.swap swap) c = .ok r c' ↔ ∃ l o,
      Ledger.transfer sender managerAddress funds c.state.ledger = .ok () l ∧
        swap.run (c.nextCall sender funds) (c.counted.funded l).state =
            .ok o ((c.counted.funded l).state.savePool o.pool) ∧
          r = o.settlement.toResponse ∧
            applyEffects o.settlement.effects
              { c.counted.funded l with state := (c.counted.funded l).state.savePool o.pool } =
                .ok () c' := by
  rw [execute_eq_ok, transact_eq_ok]
  constructor
  · rintro ⟨l, s, hpaid, hrun, hmessages⟩
    obtain ⟨o, ho, rfl⟩ := Action.bind_pure_eq_ok.1 hrun
    obtain rfl := SwapOrder.state_of_run ho
    rw [applyMessages_toResponse] at hmessages
    exact ⟨l, o, hpaid, ho, rfl, hmessages⟩
  · rintro ⟨l, o, hpaid, ho, rfl, happly⟩
    refine ⟨l, _, hpaid, Action.bind_pure_eq_ok.2 ⟨o, ho, rfl⟩, ?_⟩
    rw [applyMessages_toResponse]
    exact happly

/-- What the swap of the half leaves, and what it needs. -/
structure HalfSwapped (c c' : Chain) (sender : String) (order : DepositOrder) (coin : Coin)
    (ask : String) (pool : Pool) (sides : AssetPair) (q : SwapQuote) : Prop where
  allowed : (order.halfSwap ask).Allows c.state coin.half pool sides q
  config : c'.state.config = c.state.config
  registry : c'.state.registry = c.state.registry.save (tradedPool coin ask pool sides q)
  positions : c'.positions = c.positions
  locked : c'.state.ledger.positions = c.state.ledger.positions
  sound : c'.state.ledger.Sound
  moved : c.state.ledger.Moved c'.state.ledger
    (fun a d => gainOf managerAddress [coin.half] a d - gainOf sender [coin.half] a d +
      (single sender ⟨ask, q.returned⟩ a d +
        single c.state.config.feeCollector ⟨ask, q.charges.collected⟩ a d -
          single managerAddress ⟨ask, q.returned + q.charges.outgoing⟩ a d))
    (fun d => -Coin.total d [⟨ask, q.charges.burn⟩])

theorem halfSwapped_of_execute (h : Priced c sender order coin ask pool sides q) {r : Response}
    (hexecute : execute sender [coin.half] (.swap (order.halfSwap ask)) c = .ok r c') :
    HalfSwapped c c' sender order coin ask pool sides q := by
  have hhalf : 0 ≤ coin.half.amount := Int.ediv_nonneg h.coin_valid.2.1 (by decide)
  have hsound := ledger_sound_of_transact (execute_eq_ok.1 hexecute) h.regular.ledger
    (List.forall_mem_singleton.2 hhalf)
  obtain ⟨l, o, hpaid, hrun, -, happly⟩ := execute_swap_eq_ok.1 hexecute
  obtain ⟨⟨offer, pool', sides', q', hfunds, hallows, rfl⟩, -⟩ := SwapOrder.run_eq_ok_iff.1 hrun
  cases hfunds
  cases h.stored.symm.trans hallows.stored
  cases h.paired.symm.trans hallows.paired
  cases h.quoted.symm.trans hallows.quoted
  have hswapped := swapped_of_applyEffects (c := c.counted.funded l) h.quote_sound happly
  exact ⟨hallows.congr rfl rfl rfl rfl rfl rfl, hswapped.books.config, hswapped.books.registry,
    hswapped.positions, hswapped.locked.trans (positions_of_transfer hpaid), hsound,
    ((moved_of_transfer hpaid).trans hswapped.moved).congr (fun _ _ => rfl)
      fun _ => Int.zero_add _⟩

theorem Ready.exists_execute_swap (hr : Ready c sender order coin ask pool sides q)
    (h : Priced c sender order coin ask pool sides q) :
    ∃ r c₁, execute sender [coin.half] (.swap (order.halfSwap ask)) c = .ok r c₁ := by
  have hhalf := hr.half_pos h
  have hle : coin.half.amount ≤ c.state.ledger.balance sender coin.half.denom := by
    have hfunded := hr.funded
    change coin.amount / 2 ≤ c.state.ledger.balance sender coin.denom
    omega
  obtain ⟨l, hpaid⟩ := h.regular.ledger.exists_transfer managerAddress hle
  have hsound : l.Sound :=
    h.regular.ledger.transfer (List.forall_mem_singleton.2 (Int.le_of_lt hhalf)) hpaid
  obtain ⟨c₁, happly, -⟩ := exists_swapped (c := c.counted.funded l) h.quote_sound hsound
    (hr.paid_le_funded (x := coin.half) h h.pairs.ne hpaid) sender
    (tradedPool coin ask pool sides q)
  have hallows : (order.halfSwap ask).Allows (c.counted.funded l).state coin.half pool sides q :=
    hr.allowed.congr rfl rfl rfl rfl rfl rfl
  have hrun := SwapOrder.run_eq_ok_iff.2
    ⟨⟨_, _, _, _, (rfl : (c.nextCall sender [coin.half]).funds = [coin.half]), hallows, rfl⟩, rfl⟩
  exact ⟨_, c₁, execute_swap_eq_ok.2 ⟨l, _, hpaid, hrun, rfl, happly⟩⟩

namespace HalfSwapped

variable (hs : HalfSwapped c c' sender order coin ask pool sides q)
  (h : Priced c sender order coin ask pool sides q)
include hs

/-- Half-way is where the coins of the second deposit are with the manager. -/
theorem midway {l : Ledger} (hpaid : Ledger.transfer sender managerAddress
    [coin.rest, ⟨ask, q.returned⟩] c'.state.ledger = .ok () l) :
    Midway c (c'.counted.funded l) sender coin ask pool sides q where
  config := hs.config
  registry := hs.registry
  positions := hs.positions
  locked := (positions_of_transfer hpaid).trans hs.locked
  moved := by
    refine (hs.moved.trans (moved_of_transfer hpaid)).congr (fun a d => ?_)
      fun _ => Int.add_zero _
    simp only [gainOf_cons, gainOf_nil, single_add, ← coin.single_half_add_rest]
    omega

include h

theorem balance_offer : c'.state.ledger.balance sender coin.denom =
    c.state.ledger.balance sender coin.denom - coin.half.amount := by
  have hdenom : coin.half.denom = coin.denom := rfl
  have hne := h.pairs.ne
  rw [hs.moved.balance, gainOf_self, gainOf_of_ne h.sender_ne.symm, Coin.total_singleton,
    if_pos hdenom]
  simp only [single, hne.symm, and_false, ite_false]
  omega

theorem returned_le : q.returned ≤ c'.state.ledger.balance sender ask := by
  have hnonneg := h.regular.ledger.nonneg sender ask
  have hcollected := h.quote_sound.charges.collected
  have hne := h.pairs.ne
  rw [hs.moved.balance, gainOf_self, gainOf_of_ne h.sender_ne.symm, Coin.total_singleton,
    Coin.half, if_neg hne, single_of_ne h.sender_ne.symm]
  simp only [single, and_self, ite_true]
  split <;> omega

theorem rest_le (hr : Ready c sender order coin ask pool sides q) :
    coin.rest.amount ≤ c'.state.ledger.balance sender coin.denom := by
  have hfunded := hr.funded
  rw [hs.balance_offer h]
  dsimp only [Coin.rest, Coin.half]
  omega

theorem exists_brings (hr : Ready c sender order coin ask pool sides q) :
    ∃ coins, DepositOrder.Brings (c'.nextCall sender [coin.rest, ⟨ask, q.returned⟩])
        (tradedPool coin ask pool sides q) coins ∧ coins.length = 2 := by
  have hpairs : pool.Pairs coin.half.denom ask sides := h.pairs
  have hdenoms : (tradedPool coin ask pool sides q).denoms = pool.denoms :=
    SwapOrder.denoms_filledAssets hpairs q
  have hbelow : ∀ denom, c'.state.ledger.balance sender denom ≤ maxAmount := fun denom =>
    Int.le_trans (hs.sound.balance_le_supply sender denom) (hs.sound.fits denom)
  exact DepositOrder.Brings.exists_pair rfl (Int.le_trans (hs.rest_le h hr) (hbelow _))
    (Int.le_trans (hs.returned_le h) (hbelow _)) (hr.rest_pos h) h.returned_pos h.pairs.ne
    (hdenoms ▸ h.pairs.offer_mem_denoms) (hdenoms ▸ h.pairs.ask_mem_denoms)

/-- The second deposit can be paid, and what it asks for is what is left to do half-way. -/
theorem exists_midway_of_execute (hr : Ready c sender order coin ask pool sides q) :
    ∃ m d, Midway c m sender coin ask pool sides q ∧
      d.Alike (restDeposit sender order coin ask q.returned) ∧ ∀ c'',
        (∃ r, execute sender [coin.rest, ⟨ask, q.returned⟩] (.deposit order) c' = .ok r c'') ↔
          ∃ effects, deliver d (tradedPool coin ask pool sides q) m = .ok effects c'' := by
  obtain ⟨l, hpaid⟩ := hs.sound.exists_transfer_pair managerAddress (x := coin.rest)
    (y := ⟨ask, q.returned⟩) h.pairs.ne (Int.le_of_lt (hr.rest_pos h)) (hs.rest_le h hr)
    (hs.returned_le h)
  have hm := hs.midway hpaid
  obtain ⟨coins, hbrings, hlength⟩ := hs.exists_brings h hr
  have hfunds : ∀ x ∈ [coin.rest, ⟨ask, q.returned⟩], 0 ≤ x.amount := by
    simp [Int.le_of_lt (hr.rest_pos h), Int.le_of_lt h.returned_pos]
  have hnodup : ([coin.rest, ⟨ask, q.returned⟩].map Coin.denom).Nodup := by
    simpa [Coin.rest] using h.pairs.ne
  refine ⟨_, order.deposit (c'.nextCall sender [coin.rest, ⟨ask, q.returned⟩]) coins, hm,
    ⟨fun denom => ?_, rfl, rfl, rfl, rfl⟩, fun c'' => ?_⟩
  · rw [Deposit.amountOf_eq_total hbrings.nodup, Deposit.amountOf_eq_total hnodup]
    exact hbrings.total_eq hfunds denom
  · have hseveral : coins.length ≠ 1 := by omega
    simp only [execute_eq_ok, transact_eq_ok, deliver_eq_ok]
    constructor
    · rintro ⟨r, l', s, hpaid', hdeposit, hmessages⟩
      cases hpaid.symm.trans hpaid'
      obtain ⟨-, -, o, ho, rfl⟩ :=
        (DepositOrder.run_several_eq_ok (hm.stored h) hbrings hseveral).1 hdeposit
      obtain rfl := Deposit.state_of_run ho
      rw [applyMessages_toResponse] at hmessages
      exact ⟨_, o, ho, rfl, hmessages⟩
    · rintro ⟨_, o, ho, rfl, happly⟩
      have hdeposit := (DepositOrder.run_several_eq_ok (hm.stored h) hbrings hseveral).2
        ⟨hm.config ▸ hr.enabled, hr.lockable _ rfl, o, ho, rfl⟩
      refine ⟨_, l, _, hpaid, hdeposit, ?_⟩
      rw [applyMessages_toResponse]
      exact happly

/-- The second deposit succeeds only if the deposit of one coin is ready. -/
theorem ready_of_execute {r : Response} {c'' : Chain} (hdeposit : execute sender
    [coin.rest, ⟨ask, q.returned⟩] (.deposit order) c' = .ok r c'') :
    Ready c sender order coin ask pool sides q := by
  obtain ⟨l, s, hpaid, hrun, -⟩ := transact_eq_ok.1 (execute_eq_ok.1 hdeposit)
  obtain ⟨henabled, hlock, -⟩ := DepositOrder.run_eq_ok_iff.1 hrun
  refine ⟨?_, hs.config ▸ henabled, fun call hcall =>
    (DepositOrder.checkLock_eq hcall).trans hlock, hs.allowed⟩
  have hrest : coin.amount - coin.half.amount ≤ c'.state.ledger.balance sender coin.denom :=
    le_balance_of_transfer hpaid
  rw [hs.balance_offer h] at hrest
  omega

end HalfSwapped

/-! ## The two ways -/

/-- The depositor swaps the half, and deposits the other half with the return. -/
def SwapThenDeposit (c : Chain) (sender : String) (order : DepositOrder) (coin : Coin)
    (ask : String) (returned : Int) (c' : Chain) : Prop :=
  ∃ r c₁ r', execute sender [coin.half] (.swap (order.halfSwap ask)) c = .ok r c₁ ∧
    execute sender [coin.rest, ⟨ask, returned⟩] (.deposit order) c₁ = .ok r' c'

theorem ready_of_swapThenDeposit (h : Priced c sender order coin ask pool sides q)
    (hboth : c.SwapThenDeposit sender order coin ask q.returned c') :
    Ready c sender order coin ask pool sides q := by
  obtain ⟨_, c₁, _, hswap, hdeposit⟩ := hboth
  exact (halfSwapped_of_execute h hswap).ready_of_execute h hdeposit

/-- A deposit made half-way issues shares of the pool. -/
theorem mints_of_deliver {d : Deposit} {effects : List Effect}
    (hdeliver : deliver d (tradedPool coin ask pool sides q) m = .ok effects m') :
    ∃ amount recipient, 0 < amount ∧ .mintShare pool.lpDenom amount recipient ∈ effects := by
  obtain ⟨o, hrun, rfl, -⟩ := deliver_eq_ok.1 hdeliver
  have hissued := Deposit.exists_mint_of_run hrun
  exact hissued

/-- A deposit of one coin that is ready goes the way of the swap and the deposit of two. -/
theorem Ready.exists_settle (hr : Ready c sender order coin ask pool sides q)
    (h : Priced c sender order coin ask pool sides q)
    (hboth : c.SwapThenDeposit sender order coin ask q.returned c') :
    ∃ effects m', settle sender [coin] (.deposit order) c = .ok effects m' ∧ m'.Alike c' ∧
      ∃ amount recipient, 0 < amount ∧ .mintShare pool.lpDenom amount recipient ∈ effects := by
  obtain ⟨_, c₁, _, hswap, hdeposit⟩ := hboth
  have hs := halfSwapped_of_execute h hswap
  obtain ⟨m, d, hm, hd, hexecute⟩ := hs.exists_midway_of_execute h hr
  obtain ⟨m', hm', hsettle⟩ := hr.exists_midway_of_settle h
  obtain ⟨effects, hdeliver⟩ := (hexecute c').1 ⟨_, hdeposit⟩
  obtain ⟨c'', hdeliver', halike⟩ := exists_deliver hd (hm.alike hm') hdeliver
  exact ⟨effects, c'', (hsettle _ _).2 hdeliver', halike.symm, mints_of_deliver hdeliver'⟩

/-- The swap and the deposit of two go the way of the deposit of one coin. -/
theorem Ready.exists_swapThenDeposit (hr : Ready c sender order coin ask pool sides q)
    (h : Priced c sender order coin ask pool sides q) {effects : List Effect}
    (hsettled : settle sender [coin] (.deposit order) c = .ok effects m') :
    ∃ c', c.SwapThenDeposit sender order coin ask q.returned c' := by
  obtain ⟨_, c₁, hswap⟩ := hr.exists_execute_swap h
  have hs := halfSwapped_of_execute h hswap
  obtain ⟨m, d, hm, hd, hexecute⟩ := hs.exists_midway_of_execute h hr
  obtain ⟨n, hn, hsettle⟩ := hr.exists_midway_of_settle h
  obtain ⟨c', hdeliver, -⟩ :=
    exists_deliver hd.symm (hn.alike hm) ((hsettle _ _).1 hsettled)
  obtain ⟨_, hdeposit⟩ := (hexecute c').2 ⟨_, hdeliver⟩
  exact ⟨c', _, c₁, _, hswap, hdeposit⟩

/-- A deposit of one coin is priced by the quote of its half. -/
theorem priced_of_quote (hregular : c.Regular) (hauto : c.autoConfirm = true)
    (hcollector : c.state.config.feeCollector ≠ managerAddress)
    (htolerance : 0 ≤ c.state.config.driftTolerance)
    (hheld : ∀ denom, c.state.registry.reserves denom ≤ c.state.held denom)
    (hsender : sender ≠ managerAddress) (hpool : c.state.registry.get? order.pool = some pool)
    (htwo : pool.assets.length = 2) (hcoin : coin.Valid)
    (hquote : pool.quote c.state.config.solver coin.half ask = .ok q) (hreturned : 0 < q.returned) :
    ∃ sides, Priced c sender order coin ask pool sides q := by
  obtain ⟨sides, hsides, hquoted⟩ := Result.bind_eq_ok.1 hquote
  exact ⟨sides, hregular, hauto, hcollector, htolerance, hheld, hsender, hpool, htwo, hcoin, hsides,
    hquoted, hreturned⟩

/-- On a chain that confirms at once and holds what its pools record, a deposit of one coin into a
pool of two assets issues shares exactly if its depositor can swap half of the coin and deposit the
other half with the return; and then both ways leave the same pools, positions, supplies and
balances. -/
theorem mints_iff_swapThenDeposit (hreachable : c.Reachable) (hauto : c.autoConfirm = true)
    (hcollector : c.state.config.feeCollector ≠ managerAddress)
    (htolerance : 0 ≤ c.state.config.driftTolerance)
    (hheld : ∀ denom, c.state.registry.reserves denom ≤ c.state.held denom)
    (hsender : sender ≠ managerAddress) (hpool : c.state.registry.get? order.pool = some pool)
    (htwo : pool.assets.length = 2) (hcoin : coin.Valid)
    (hquote : pool.quote c.state.config.solver coin.half ask = .ok q) (hreturned : 0 < q.returned) :
    (c.Mints sender [coin] (.deposit order) pool.lpDenom ↔
      ∃ c', c.SwapThenDeposit sender order coin ask q.returned c') ∧
    ∀ c', c.SwapThenDeposit sender order coin ask q.returned c' →
      (after (execute sender [coin] (.deposit order)) c).Alike c' := by
  obtain ⟨sides, h⟩ := priced_of_quote hreachable.regular hauto hcollector htolerance hheld hsender
    hpool htwo hcoin hquote hreturned
  refine ⟨⟨fun hmints => ?_, fun ⟨c', hboth⟩ => ?_⟩, fun c' hboth => ?_⟩
  · have hr := ready_of_mints h hmints
    obtain ⟨effects, m', hsettled, -⟩ := hmints
    exact hr.exists_swapThenDeposit h hsettled
  · obtain ⟨effects, m', hsettled, -, hissued⟩ :=
      (ready_of_swapThenDeposit h hboth).exists_settle h hboth
    exact ⟨effects, m', hsettled, hissued⟩
  · obtain ⟨effects, m', hsettled, halike, -⟩ :=
      (ready_of_swapThenDeposit h hboth).exists_settle h hboth
    rw [after_execute_of_settle hsettled]
    exact halike

/-- A chain with a pool that takes fees of every kind, and a depositor with an odd amount. -/
def oddChain : Chain :=
  after (perform (.fund "alice" [⟨"uom", 50001⟩]))
    (after (perform (.addPool feePool)) (empty {} true))

def oddCoin : Coin := ⟨"uom", 50001⟩

def oddOrder : DepositOrder := { pool := "uom.uusd.1", maxSpread := some ⟨50000000000000000⟩ }

theorem mints_iff_swapThenDeposit_oddChain :
    (∃ c', oddChain.SwapThenDeposit "alice" oddOrder oddCoin "uusd" 48441 c') ∧
      oddChain.Mints "alice" [oddCoin] (.deposit oddOrder) "factory/uom-uusd" ∧
        ∀ c', oddChain.SwapThenDeposit "alice" oddOrder oddCoin "uusd" 48441 c' →
          (after (execute "alice" [oddCoin] (.deposit oddOrder)) oddChain).Alike c' := by
  have hvalid : feePool.Valid := by decide
  have hreachable : oddChain.Reachable :=
    .step (.step (.empty {} true) (.addPool hvalid)) (.fund (by decide))
  have hsurplus : ∀ denom, oddChain.surplus denom = 0 := by
    intro denom
    rw [oddChain, surplus_after_fund (by decide), surplus_after_addPool hvalid ⟨_, rfl⟩ rfl]
    rfl
  have hheld : ∀ denom, oddChain.state.registry.reserves denom ≤ oddChain.state.held denom :=
    fun denom => Int.sub_nonneg.1 (Int.le_of_eq (hsurplus denom).symm)
  have hboth : ∃ c', oddChain.SwapThenDeposit "alice" oddOrder oddCoin "uusd" 48441 c' := by
    let swap := execute "alice" [oddCoin.half] (.swap (oddOrder.halfSwap "uusd"))
    let deposit := execute "alice" [oddCoin.rest, ⟨"uusd", 48441⟩] (.deposit oddOrder)
    have hswap : swap.succeeds oddChain = true := by decide +kernel
    have hdeposit : deposit.succeeds (after swap oddChain) = true := by decide +kernel
    obtain ⟨r, hswapped⟩ := exists_ok_after hswap
    obtain ⟨r', hdeposited⟩ := exists_ok_after hdeposit
    exact ⟨_, r, _, r', hswapped, hdeposited⟩
  obtain ⟨hiff, halike⟩ := @mints_iff_swapThenDeposit oddChain "alice" oddOrder oddCoin "uusd"
    feePool ⟨48441, 1220, ⟨146, 97, 48, 48⟩⟩ hreachable rfl (by decide) (by decide) hheld
    (by decide) rfl rfl (by decide) rfl (by decide)
  exact ⟨hboth, hiff.2 hboth, halike⟩

end Chain

end MarketMaker
