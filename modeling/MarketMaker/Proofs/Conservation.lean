import MarketMaker.Proofs.Surplus

/-! # Conservation where swaps are confirmed at once

A chain that confirms at once trades the half of a deposit at the price that its first phase has
just fixed. So each transaction changes the manager's holdings exactly as it changes the records. -/

namespace MarketMaker.Chain

open Ledger

variable {c c' : Chain} {denom : String}

/-! ## One transaction -/

/-- The trade that follows at once has the price of the first phase. -/
theorem Traded.quote_eq {call : Call} {l : Ledger} {order : DepositOrder} {pool pool' : Pool}
    {coin : Coin} {sides sides' : AssetPair} {q q' : SwapQuote} {st : Provision.Start} {o : Outcome}
    {c₀ c₁ : Chain} (traded : Traded st.swap c₀ c₁ pool' sides' q' o)
    (begins : order.Begins (c.funded l).state call pool coin sides q st)
    (hsound : c.state.registry.Sound) (hregistry : c₀.state.registry = c.state.registry)
    (hconfig : c₀.state.config = c.state.config) : q' = q := by
  have hswap := begins.started.swap_eq
  have hid : pool.identifier = order.pool := (hsound _ _ begins.stored).1
  have hpool : pool' = pool := by
    have hstored := traded.fills.stored
    have hown : c.state.registry.get? order.pool = some pool := begins.stored
    rw [hregistry, halfSwapOrder, hswap] at hstored
    dsimp only at hstored
    rw [hid, hown, Option.some.injEq] at hstored
    exact hstored.symm
  have hsides : sides' = sides := by
    have hpaired := traded.fills.paired
    rw [halfSwapOrder, hswap, hpool] at hpaired
    dsimp only at hpaired
    rw [begins.started.paired, Except.ok.injEq] at hpaired
    exact hpaired.symm
  have hquoted := traded.fills.quoted
  rw [hconfig, hswap, hpool, hsides] at hquoted
  dsimp only at hquoted
  have hstart := begins.started.quoted
  dsimp only [funded] at hstart
  rw [hstart, Except.ok.injEq] at hquoted
  exact hquoted.symm

theorem surplus_of_transacted {call : Call} {op : Operation} (hs : c.Sound)
    (hauto : c.autoConfirm = true) (hcall : call.FromUser) (hpays : op.PaysUser)
    (hshare : c.state.registry.NotShare denom) (h : Transacted op call c c') :
    c'.surplus denom = c.surplus denom := by
  cases h with
  | settled paid settles moved books =>
      rename_i l pool o
      exact surplus_of_settled (s := (c.funded l).state) hs rfl rfl hcall hpays hshare paid settles
        moved books
  | queued paid begins manual heq =>
      rw [hauto] at manual
      cases manual
  | confirmed paid begins auto confirmed =>
      rename_i l order pool coin sides q st
      have hnoted := surplus_noted hcall.sender_ne paid st.provision denom
      have hwhole := begins.total_wholeOffer hcall denom
      have hstored : (c.noted l call.transaction st.provision).state.provisions.get?
          st.swap.provision = some st.provision := by
        rw [Transacted.swap_provision begins, noted, Table.get?_put, if_pos rfl]
      have hm := begins.matches_swap hs.registry
      have hp := begins.sound hcall
      cases confirmed with
      | completed went traded waiting complete moved books =>
          rename_i q' o o' p
          obtain rfl : st.provision = p := Option.some.inj (hstored.symm.trans waiting)
          have hquote := traded.quote_eq begins hs.registry rfl rfl
          have hexpected : st.provision.expectedReturn = q'.returned := by
            rw [begins.started.provision_eq, hquote]
          have hcompleted := surplus_of_completed traded complete moved books hs.registry
            hs.collector hshare hm hp
          rw [hcompleted, hnoted, hwhole, hexpected]
          omega
      | refunded failed waiting moved books =>
          rename_i p
          obtain rfl : st.provision = p := Option.some.inj (hstored.symm.trans waiting)
          have hrefunded := surplus_of_refunded hp moved books denom
          rw [hrefunded, hnoted, hwhole]
          omega

theorem surplus_after_execute (hs : c.Sound) (hauto : c.autoConfirm = true) {sender : String}
    {funds : List Coin} {op : Operation} (he : c.Orderly (.execute sender funds op))
    (hshare : c.state.registry.NotShare denom) :
    (after (perform (.execute sender funds op)) c).surplus denom = c.surplus denom := by
  cases he with
  | execute sender_ne funds_valid pays =>
      rw [after_perform_execute]
      rcases after_execute sender funds op c with h | ⟨c', h, heq⟩
      · have hcall := nextCall_fromUser (c := c) sender_ne funds_valid
        have hsettled := surplus_of_transacted hs.counted hauto hcall pays hshare h
        exact hsettled
      · rw [heq]
        exact surplus_rollback rfl rfl

/-! ## Runs -/

/-- Every pool of a run is added under a name of its own. -/
def FreshRun (c : Chain) : List Event → Prop
  | [] => True
  | e :: rest =>
    (∀ pool, e = .addPool pool → c.state.registry.get? pool.identifier = none) ∧
      FreshRun (after (perform e) c) rest

/-- No event of a chain that confirms at once changes the surplus. -/
theorem surplus_after (hs : c.Sound) (hauto : c.autoConfirm = true) {e : Event} (he : c.Orderly e)
    (hfresh : ∀ pool, e = .addPool pool → c.state.registry.get? pool.identifier = none)
    (hshare : c.state.registry.NotShare denom) :
    (after (perform e) c).surplus denom = c.surplus denom := by
  cases he with
  | execute sender_ne funds_valid pays =>
      exact surplus_after_execute hs hauto (.execute sender_ne funds_valid pays) hshare
  | runDeferred waiting => exact absurd hauto (hs.manual waiting)
  | fund address_ne coins_valid => exact surplus_after_fund address_ne _ c denom
  | addPool valid added => exact surplus_after_addPool valid added (hfresh _ rfl) denom

theorem surplus_run {events : List Event} (hs : c.Sound) (hauto : c.autoConfirm = true)
    (h : c.OrderlyRun events) (hfresh : c.FreshRun events)
    (hshare : c.state.registry.NotShare denom)
    (hadded : ∀ pool, .addPool pool ∈ events → pool.lpDenom ≠ denom) :
    (run events c).surplus denom = c.surplus denom := by
  induction events generalizing c with
  | nil => rfl
  | cons e rest ih =>
      have hnext := sound_after hs h.1
      have hsettings := settings_after hs h.1
      have hshareNext := notShare_after hs h.1 hshare fun pool he =>
        hadded pool (he ▸ List.mem_cons_self)
      have hrest := ih hnext (hsettings.autoConfirm.trans hauto) h.2 hfresh.2 hshareNext
        fun pool hp => hadded pool (List.mem_cons_of_mem e hp)
      rw [run_cons, hrest, surplus_after hs hauto h.1 hfresh.1 hshare]

/-- On a chain that confirms at once, no transaction of a user changes the difference between what
the manager holds of a denom and what its pools record of it, whether the transaction succeeds or
fails; and where pools have names of their own, the two are equal after any run. -/
theorem held_eq_reserves_throughout {config : Config}
    (hcollector : config.feeCollector ≠ managerAddress) {events : List Event}
    (hrun : (empty config true).OrderlyRun events)
    (hdenom : ∀ pool, .addPool pool ∈ events → pool.lpDenom ≠ denom) :
    (∀ sender funds op, (run events (empty config true)).Orderly (.execute sender funds op) →
      (after (perform (.execute sender funds op)) (run events (empty config true))).surplus denom =
        (run events (empty config true)).surplus denom) ∧
      ((empty config true).FreshRun events →
        (run events (empty config true)).state.held denom =
          (run events (empty config true)).state.registry.reserves denom) := by
  have hs := sound_empty hcollector true
  have hempty : (empty config true).state.registry.NotShare denom := fun _ _ hp => nomatch hp
  have hshare := notShare_run hs hrun hempty hdenom
  constructor
  · intro sender funds op he
    exact surplus_after_execute (sound_run hs hrun) (settings_run hs hrun).autoConfirm he hshare
  · intro hfresh
    have hsurplus := surplus_run hs rfl hrun hfresh hempty hdenom
    have hzero : (empty config true).surplus denom = 0 := rfl
    rw [hzero, surplus] at hsurplus
    omega

/-- A pool with fees of every kind. -/
def feePool : Pool where
  identifier := "uom.uusd.1"
  assets := [⟨"uom", 1000000⟩, ⟨"uusd", 2000000⟩]
  curve := .constantProduct
  lpDenom := "factory/uom-uusd"
  fees :=
    { swap := ⟨3000000000000000⟩, protocol := ⟨2000000000000000⟩, burn := ⟨1000000000000000⟩,
      extra := [⟨1000000000000000⟩] }
  decimals := [6, 6]

/-- A deposit of one asset, after the pool was added and its sender was funded. -/
def singleSidedRun : List Event :=
  [ .addPool feePool,
    .fund "alice" [⟨"uom", 50001⟩],
    .execute "alice" [⟨"uom", 50001⟩] (.deposit { pool := "uom.uusd.1" }) ]

theorem held_eq_reserves_after_singleSidedRun :
    (∀ sender funds op,
      (run singleSidedRun (empty {} true)).Orderly (.execute sender funds op) →
      (after (perform (.execute sender funds op)) (run singleSidedRun (empty {} true))).surplus
          "uusd" = (run singleSidedRun (empty {} true)).surplus "uusd") ∧
      (run singleSidedRun (empty {} true)).state.held "uusd" =
        (run singleSidedRun (empty {} true)).state.registry.reserves "uusd" := by
  have horderly : (empty {} true).OrderlyRun singleSidedRun :=
    ⟨.addPool (by decide) ⟨_, rfl⟩, .fund (by decide) (by decide),
      .execute (by decide) (by decide) trivial, trivial⟩
  have hfresh : (empty {} true).FreshRun singleSidedRun := by
    refine ⟨?_, ?_, ?_, trivial⟩
    · intro pool h
      rfl
    · intro pool h
      cases h
    · intro pool h
      cases h
  have hdenom : ∀ pool, .addPool pool ∈ singleSidedRun → pool.lpDenom ≠ "uusd" := by
    intro pool hp
    simp only [singleSidedRun, List.mem_cons, reduceCtorEq, List.not_mem_nil, or_false,
      Event.addPool.injEq] at hp
    subst hp
    decide
  obtain ⟨hexecute, hequal⟩ := held_eq_reserves_throughout (by decide) horderly hdenom
  exact ⟨hexecute, hequal hfresh⟩

end MarketMaker.Chain
