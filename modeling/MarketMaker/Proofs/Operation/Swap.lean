import MarketMaker.Operation.Swap
import MarketMaker.Proofs.Movement
import MarketMaker.Proofs.Quote
import MarketMaker.Proofs.Reserve

/-! # What a swap does

A swap that succeeds is described by its offer, its pool, the two sides and the quote. Its effects
take from the manager what its pool gives up, except for what it returns to the manager itself. -/

namespace MarketMaker.SwapOrder

open Ledger

def filledAssets (pool : Pool) (sides : AssetPair) (offer : Coin) (ask : String) (q : SwapQuote) :
    List Coin :=
  (pool.assets.set sides.offerIndex ⟨offer.denom, sides.offer + offer.amount⟩).set sides.askIndex
    ⟨ask, sides.ask - (q.returned + q.charges.outgoing)⟩

private theorem ask_get_of_pairs {pool : Pool} {sides : AssetPair} {offer ask : String}
    (h : pool.Pairs offer ask sides) (c : Coin) :
    (pool.assets.set sides.offerIndex c)[sides.askIndex]? = some ⟨ask, sides.ask⟩ := by
  rw [List.getElem?_set_ne h.index_ne]
  exact h.ask

theorem denoms_filledAssets {pool : Pool} {sides : AssetPair} {offer : Coin} {ask : String}
    (h : pool.Pairs offer.denom ask sides) (q : SwapQuote) :
    (filledAssets pool sides offer ask q).map Coin.denom = pool.denoms := by
  rw [filledAssets, Coin.denoms_set (ask_get_of_pairs h _), Coin.denoms_set h.offer]
  rfl

/-- What lets a swap of an offer through, whoever makes it. -/
structure Allows (order : SwapOrder) (s : State) (offer : Coin) (pool : Pool) (sides : AssetPair)
    (q : SwapQuote) : Prop where
  enabled : s.config.swapsEnabled = true
  offer_ne : offer.amount ≠ 0
  stored : s.registry.get? order.pool = some pool
  paired : pool.pair offer.denom order.askDenom = .ok sides
  quoted : (pool.market sides).quote s.config.solver offer.amount pool.curve = .ok q
  allowed : Spread.check order.beliefPrice order.maxSpread offer.amount q.returned q.spread = .ok ()
  offer_le : sides.offer + offer.amount ≤ maxAmount
  ask_ge : q.returned + q.charges.outgoing ≤ sides.ask

/-- Neither the ledger nor the receiver has a say in whether a swap is let through. -/
theorem Allows.congr {order order' : SwapOrder} {s s' : State} {offer : Coin} {pool : Pool}
    {sides : AssetPair} {q : SwapQuote} (h : order.Allows s offer pool sides q)
    (hpool : order'.pool = order.pool) (hask : order'.askDenom = order.askDenom)
    (hbelief : order'.beliefPrice = order.beliefPrice)
    (hspread : order'.maxSpread = order.maxSpread)
    (hconfig : s'.config = s.config) (hregistry : s'.registry = s.registry) :
    order'.Allows s' offer pool sides q where
  enabled := hconfig ▸ h.enabled
  offer_ne := h.offer_ne
  stored := by rw [hregistry, hpool, h.stored]
  paired := hask ▸ h.paired
  quoted := hconfig ▸ h.quoted
  allowed := by rw [hbelief, hspread, h.allowed]
  offer_le := h.offer_le
  ask_ge := h.ask_ge

def filled (order : SwapOrder) (s : State) (call : Call) (offer : Coin) (pool : Pool)
    (sides : AssetPair) (q : SwapQuote) : Outcome :=
  let receiver := call.receiver order.receiver
  ⟨pool.withAssets (filledAssets pool sides offer order.askDenom q),
    effects s.config receiver order.askDenom q, order.attributes call receiver offer q⟩

theorem offerOf_eq_ok {call : Call} {offer : Coin} :
    offerOf call = .ok offer ↔ call.funds = [offer] ∧ offer.amount ≠ 0 := by
  unfold offerOf
  split
  · rename_i c hc
    rw [Result.guarded_eq_ok, Except.ok.injEq, hc, List.singleton_inj]
    constructor
    · rintro ⟨hne, rfl⟩
      exact ⟨rfl, hne⟩
    · rintro ⟨rfl, hne⟩
      exact ⟨hne, rfl⟩
  · rename_i hnot
    constructor
    · intro h
      cases h
    · rintro ⟨hfunds, -⟩
      exact absurd hfunds (hnot offer)

theorem newAssets_eq_ok {pool : Pool} {sides : AssetPair} {offer : Coin} {ask : String}
    {q : SwapQuote} (hq : 0 ≤ q.charges.outgoing) {assets : List Coin} :
    newAssets pool sides offer ask q = .ok assets ↔
      sides.offer + offer.amount ≤ maxAmount ∧ q.returned + q.charges.outgoing ≤ sides.ask ∧
        assets = filledAssets pool sides offer ask q := by
  simp only [newAssets, Result.bind_eq_ok, Checked.add_eq_ok_iff, Checked.sub_eq_ok_iff,
    Except.ok.injEq, filledAssets, ← Int.sub_sub]
  constructor
  · rintro ⟨_, ⟨hadd, rfl⟩, _, ⟨-, rfl⟩, _, ⟨hout, rfl⟩, rfl⟩
    exact ⟨hadd, by omega, rfl⟩
  · rintro ⟨hadd, hout, rfl⟩
    exact ⟨_, ⟨hadd, rfl⟩, _, ⟨by omega, rfl⟩, _, ⟨by omega, rfl⟩, rfl⟩

/-- A swap succeeds exactly if it brings one coin and is let through, and all that it changes is
the record of its pool. -/
theorem run_eq_ok_iff {order : SwapOrder} {s s' : State} {call : Call} {o : Outcome} :
    order.run call s = .ok o s' ↔ (∃ offer pool sides q, call.funds = [offer] ∧
      order.Allows s offer pool sides q ∧ o = order.filled s call offer pool sides q) ∧
        s' = s.savePool o.pool := by
  simp only [run, Action.get_bind, Action.lift_bind_eq_ok, checkEnabled_eq_ok, offerOf_eq_ok,
    State.pool, Registry.get_eq_ok_iff, State.keepPool_bind, Action.pure_eq_ok]
  constructor
  · rintro ⟨_, henabled, offer, ⟨hfunds, hne⟩, pool, hpool, sides, hsides, q, hq, _, hspread,
      assets, hassets, rfl, rfl⟩
    have hout := (Market.sound_of_quote hq).charges.outgoing
    obtain ⟨hadd, hge, rfl⟩ := (newAssets_eq_ok hout).1 hassets
    exact ⟨⟨offer, pool, sides, q, hfunds, ⟨henabled, hne, hpool, hsides, hq, hspread, hadd, hge⟩,
      rfl⟩, rfl⟩
  · rintro ⟨⟨offer, pool, sides, q, hfunds, h, rfl⟩, rfl⟩
    have hout := (Market.sound_of_quote h.quoted).charges.outgoing
    exact ⟨(), h.enabled, offer, ⟨hfunds, h.offer_ne⟩, pool, h.stored, sides, h.paired, q, h.quoted,
      (), h.allowed, _, (newAssets_eq_ok hout).2 ⟨h.offer_le, h.ask_ge, rfl⟩, rfl, rfl⟩

theorem state_of_run {order : SwapOrder} {s s' : State} {call : Call} {o : Outcome}
    (h : order.run call s = .ok o s') : s' = s.savePool o.pool := (run_eq_ok_iff.1 h).2

theorem keepsOnError_run (order : SwapOrder) (call : Call) : (order.run call).KeepsOnError := by
  -- Every step up to the record only reads or checks.
  refine .get_bind fun s => .lift_bind fun _ => .lift_bind fun offer => .lift_bind fun pool => ?_
  refine .lift_bind fun sides => .lift_bind fun q => .lift_bind fun _ => .lift_bind fun assets => ?_
  exact State.keepsOnError_keepPool _ _

/-- An order that was filled, with all that its outcome depends on. -/
structure Fills (order : SwapOrder) (s : State) (call : Call) (offer : Coin) (pool : Pool)
    (sides : AssetPair) (q : SwapQuote) (o : Outcome) : Prop where
  funds : call.funds = [offer]
  offer_ne : offer.amount ≠ 0
  stored : s.registry.get? order.pool = some pool
  paired : pool.pair offer.denom order.askDenom = .ok sides
  quoted : (pool.market sides).quote s.config.solver offer.amount pool.curve = .ok q
  offer_le : sides.offer + offer.amount ≤ maxAmount
  ask_ge : q.returned + q.charges.outgoing ≤ sides.ask
  pool_eq : o.pool = pool.withAssets (filledAssets pool sides offer order.askDenom q)
  effects_eq : o.settlement.effects =
    SwapOrder.effects s.config (call.receiver order.receiver) order.askDenom q

theorem fills_of_run {order : SwapOrder} {s s' : State} {call : Call} {o : Outcome}
    (h : order.run call s = .ok o s') :
    ∃ offer pool sides q, order.Fills s call offer pool sides q o := by
  obtain ⟨⟨offer, pool, sides, q, hfunds, hallows, rfl⟩, -⟩ := run_eq_ok_iff.1 h
  exact ⟨offer, pool, sides, q, hfunds, hallows.offer_ne, hallows.stored, hallows.paired,
    hallows.quoted, hallows.offer_le, hallows.ask_ge, rfl, rfl⟩

/-- A payment that is made only when there is something to pay. -/
private theorem gains_send (x : Int) (h : 0 ≤ x) (recipient ask a d : String) :
    Effect.gains (if 0 < x then [.send recipient [⟨ask, x⟩]] else []) a d =
      single recipient ⟨ask, x⟩ a d - single managerAddress ⟨ask, x⟩ a d := by
  by_cases hx : 0 < x
  · simp only [hx, ite_true, Effect.gains_cons, Effect.gains_nil, Effect.gain, gainOf_cons,
      gainOf_nil]
    omega
  · have hzero : x = 0 := by omega
    simp [hzero, Effect.gains_nil, single]

private theorem gains_burn (x : Int) (h : 0 ≤ x) (ask a d : String) :
    Effect.gains (if 0 < x then [.burn [⟨ask, x⟩]] else []) a d =
      -single managerAddress ⟨ask, x⟩ a d := by
  by_cases hx : 0 < x
  · simp only [hx, ite_true, Effect.gains_cons, Effect.gains_nil, Effect.gain, gainOf_cons,
      gainOf_nil]
    omega
  · have hzero : x = 0 := by omega
    simp [hzero, Effect.gains_nil, single]

/-- What a swap moves, all of it in the asked denom. -/
theorem gains_effects (config : Config) (receiver ask : String) {q : SwapQuote} (h : q.Sound)
    (a d : String) :
    Effect.gains (effects config receiver ask q) a d =
      single receiver ⟨ask, q.returned⟩ a d +
        single config.feeCollector ⟨ask, q.charges.collected⟩ a d -
          single managerAddress ⟨ask, q.returned + q.charges.outgoing⟩ a d := by
  rw [effects, Effect.gains_append, Effect.gains_append, gains_send _ h.returned,
    gains_send _ h.charges.collected, gains_burn _ h.charges.burn,
    Charges.outgoing_eq_collected_add_burn, single_add, single_add]
  omega

/-- A swap issues nothing, and burns of the asked denom what it does not pay. -/
theorem issues_effects (config : Config) (receiver ask : String) {q : SwapQuote}
    (h : 0 ≤ q.charges.burn) (d : String) :
    Effect.issues (effects config receiver ask q) d =
      -Coin.total d [⟨ask, q.charges.burn⟩] := by
  have hsend : ∀ (x : Int) (recipient : String),
      Effect.issues (if 0 < x then [.send recipient [⟨ask, x⟩]] else []) d = 0 := by
    intro x recipient
    split <;> rfl
  have hburn : Effect.issues
      (if 0 < q.charges.burn then [.burn [⟨ask, q.charges.burn⟩]] else []) d =
        -Coin.total d [⟨ask, q.charges.burn⟩] := by
    by_cases hpos : 0 < q.charges.burn
    · simp [hpos, Effect.issues_cons, Effect.issues_nil, Effect.issue]
    · have hzero : q.charges.burn = 0 := by omega
      simp [hzero, Effect.issues_nil, Coin.total_singleton]
  rw [effects, Effect.issues_append, Effect.issues_append, hsend, hsend, hburn]
  omega

namespace Fills

variable {order : SwapOrder} {s : State} {call : Call} {offer : Coin} {pool : Pool}
  {sides : AssetPair} {q : SwapQuote} {o : Outcome}

theorem sound (h : order.Fills s call offer pool sides q o) : q.Sound :=
  Market.sound_of_quote h.quoted

theorem pairs (h : order.Fills s call offer pool sides q o) :
    pool.Pairs offer.denom order.askDenom sides := Pool.pairs_of_pair h.paired

theorem ask_get (h : order.Fills s call offer pool sides q o) :
    (pool.assets.set sides.offerIndex ⟨offer.denom, sides.offer + offer.amount⟩)[sides.askIndex]? =
      some ⟨order.askDenom, sides.ask⟩ := ask_get_of_pairs h.pairs _

theorem denoms_filled (h : order.Fills s call offer pool sides q o) :
    (filledAssets pool sides offer order.askDenom q).map Coin.denom = pool.denoms :=
  denoms_filledAssets h.pairs q

theorem offer_filled (h : order.Fills s call offer pool sides q o) :
    (filledAssets pool sides offer order.askDenom q)[sides.offerIndex]? =
      some ⟨offer.denom, sides.offer + offer.amount⟩ := by
  have hlt := (List.getElem?_eq_some_iff.1 h.pairs.offer).1
  rw [filledAssets, List.getElem?_set_ne h.pairs.index_ne.symm, List.getElem?_set_self hlt]

theorem ask_filled (h : order.Fills s call offer pool sides q o) :
    (filledAssets pool sides offer order.askDenom q)[sides.askIndex]? =
      some ⟨order.askDenom, sides.ask - (q.returned + q.charges.outgoing)⟩ := by
  have hlt := (List.getElem?_eq_some_iff.1 h.ask_get).1
  rw [filledAssets, List.getElem?_set_self hlt]

/-- The two sides of the pool after the swap. -/
theorem pair_filled (h : order.Fills s call offer pool sides q o) :
    o.pool.pair offer.denom order.askDenom =
      .ok { sides with
        offer := sides.offer + offer.amount
        ask := sides.ask - (q.returned + q.charges.outgoing) } := by
  have hpair := Pool.pair_withAssets h.paired h.denoms_filled
  rw [h.pool_eq, hpair, Pool.balanceAt_of_get? h.offer_filled, Pool.balanceAt_of_get? h.ask_filled]

/-- The offer joins the pool; the return and what goes out of the fees leave it. -/
theorem reserve_eq (h : order.Fills s call offer pool sides q o) (d : String) :
    o.pool.reserve d = pool.reserve d + Coin.total d [offer] -
      Coin.total d [⟨order.askDenom, q.returned + q.charges.outgoing⟩] := by
  rw [h.pool_eq, Pool.reserve_withAssets, filledAssets, Coin.total_set d _ h.ask_get,
    Coin.total_set d _ h.pairs.offer, Coin.total_singleton, Coin.total_singleton, Pool.reserve]
  dsimp only
  split <;> split <;> omega

theorem refills (h : order.Fills s call offer pool sides q o) (hpool : pool.Valid)
    (hoffer : 0 ≤ offer.amount) :
    pool.Refills (filledAssets pool sides offer order.askDenom q) where
  denoms := h.denoms_filled
  amounts := by
    have hside := hpool.assets_valid _ h.pairs.offer_mem
    have hask := hpool.assets_valid _ h.pairs.ask_mem
    have hout := h.sound.charges.outgoing
    have hreturned := h.sound.returned
    have hge := h.ask_ge
    have hle := h.offer_le
    intro c hc
    rcases List.mem_or_eq_of_mem_set hc with hc | rfl
    · rcases List.mem_or_eq_of_mem_set hc with hc | rfl
      · exact (hpool.assets_valid c hc).2
      · exact ⟨Int.add_nonneg hside.2.1 hoffer, hle⟩
    · exact ⟨Int.sub_nonneg_of_le hge, by have := hask.2.2; dsimp only at this ⊢; omega⟩

/-- The manager gains what its pool records, where the fees go to another address. What the swap
returns to the manager itself stays with it without being recorded. -/
theorem balanced (h : order.Fills s call offer pool sides q o)
    (hcollector : s.config.feeCollector ≠ managerAddress) (d : String) :
    o.pool.reserve d + single (call.receiver order.receiver) ⟨order.askDenom, q.returned⟩
        managerAddress d =
      pool.reserve d + Coin.total d call.funds +
        Effect.gains o.settlement.effects managerAddress d := by
  rw [h.reserve_eq, h.effects_eq, gains_effects _ _ _ h.sound, h.funds, single_self,
    single_of_ne hcollector]
  omega

end Fills

end MarketMaker.SwapOrder
