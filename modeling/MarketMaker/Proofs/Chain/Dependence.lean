import MarketMaker.Proofs.Chain.SwapThenDeposit
import MarketMaker.Proofs.Chain.Worth
import MarketMaker.Proofs.Chain.Writes

/-! # What the result of an operation depends on

An operation on a pool sees the settings, the pool's own record and the supply of its shares. On two
chains that agree on these it writes the same record and carries out the same effects. That includes
a deposit of one asset, whose second phase compares balances which the rest of the chain changes, as
long as the manager holds what the pools record. -/

namespace MarketMaker

open Ledger

/-- Two states that agree on what an operation on the pool of a name depends on. -/
structure State.AgreeAt (name : String) (s t : State) : Prop where
  config : t.config = s.config
  record : t.registry.get? name = s.registry.get? name
  supply : ∀ p, s.registry.get? name = some p → t.shareSupply p = s.shareSupply p

theorem State.AgreeAt.refl (name : String) (s : State) : s.AgreeAt name s :=
  ⟨rfl, rfl, fun _ _ => rfl⟩

theorem State.AgreeAt.symm {name : String} {s t : State} (h : s.AgreeAt name t) :
    t.AgreeAt name s :=
  ⟨h.config.symm, h.record.symm, fun p hp => (h.supply p (h.record ▸ hp)).symm⟩

/-- Outcomes that differ in their attributes at most. -/
structure Outcome.Same (o o' : Outcome) : Prop where
  pool : o'.pool = o.pool
  effects : o'.settlement.effects = o.settlement.effects

/-! ## Operations that are settled at once -/

section Settled

variable {s t : State} {call call' : Call} {pool pool' : Pool} {o o' : Outcome}

theorem SwapOrder.Fills.same {order : SwapOrder} {offer offer' : Coin} {sides sides' : AssetPair}
    {q q' : SwapQuote} (h : order.Fills s call offer pool sides q o)
    (h' : order.Fills t call' offer' pool' sides' q' o') (hagree : s.AgreeAt order.pool t)
    (hsender : call'.sender = call.sender) (hfunds : call'.funds = call.funds) :
    pool' = pool ∧ o.Same o' := by
  obtain rfl : offer' = offer := List.singleton_inj.1 (h'.funds.symm.trans (hfunds.trans h.funds))
  obtain rfl : pool' = pool :=
    Option.some.inj (h'.stored.symm.trans (hagree.record.trans h.stored))
  obtain rfl : sides' = sides := Except.ok.inj (h'.paired.symm.trans h.paired)
  obtain rfl : q' = q := Except.ok.inj ((hagree.config ▸ h'.quoted).symm.trans h.quoted)
  refine ⟨rfl, h'.pool_eq.trans h.pool_eq.symm, ?_⟩
  rw [h'.effects_eq, h.effects_eq, hagree.config, Call.receiver, hsender, Call.receiver]

theorem Withdrawal.Paid.same {identifier : String} {amount amount' : Int}
    (h : Withdrawal.Paid identifier s call pool amount o)
    (h' : Withdrawal.Paid identifier t call' pool' amount' o') (hagree : s.AgreeAt identifier t)
    (hsender : call'.sender = call.sender) (hfunds : call'.funds = call.funds) :
    pool' = pool ∧ o.Same o' := by
  obtain rfl : pool' = pool :=
    Option.some.inj (h'.stored.symm.trans (hagree.record.trans h.stored))
  have hcoin := List.singleton_inj.1 (h'.funds.symm.trans (hfunds.trans h.funds))
  obtain rfl : amount' = amount := congrArg Coin.amount hcoin
  have hsupply := hagree.supply _ h.stored
  refine ⟨rfl, ?_, ?_⟩
  · rw [h'.pool_eq, h.pool_eq, hsupply]
  · rw [h'.effects_eq, h.effects_eq, hsupply, hsender]

/-- A deposit that locks nothing depends on nothing of the ledger but the supply of the shares. -/
theorem Deposit.Accepted.same {d : Deposit} {deposits deposits' balances balances' : List Int}
    {share share' : Int} {issued issued' : List Effect}
    (h : d.Accepted s pool deposits balances share issued o)
    (h' : d.Accepted t pool deposits' balances' share' issued' o') (hconfig : t.config = s.config)
    (hsupply : t.shareSupply pool = s.shareSupply pool) (hlock : d.unlockingDuration = none) :
    o.Same o' := by
  obtain rfl : deposits' = deposits := Except.ok.inj (h'.deposits_eq.symm.trans h.deposits_eq)
  obtain rfl : balances' = balances := Except.ok.inj (h'.balances_eq.symm.trans h.balances_eq)
  have hshare := h'.share_eq
  rw [hconfig, hsupply] at hshare
  obtain rfl : share' = share := Except.ok.inj (hshare.symm.trans h.share_eq)
  have hissued := h.issued_eq
  have hissued' := h'.issued_eq
  simp only [shareEffects, hlock, Except.ok.injEq] at hissued hissued'
  refine ⟨h'.pool_eq.trans h.pool_eq.symm, ?_⟩
  rw [h'.effects_eq, h.effects_eq, hsupply, ← hissued, ← hissued']

theorem Provision.Completed.same {p p' : Provision} (h : p.Completed s pool o)
    (h' : p'.Completed t pool o') (hcompletion : p'.completion = p.completion)
    (hconfig : t.config = s.config) (hsupply : t.shareSupply pool = s.shareSupply pool)
    (hlock : p.request.unlockingDuration = none) : o.Same o' := by
  obtain ⟨_, _, _, _, haccepted⟩ := h.deposited
  obtain ⟨_, _, _, _, haccepted'⟩ := h'.deposited
  rw [hcompletion] at haccepted'
  exact haccepted.same haccepted' hconfig hsupply hlock

/-- Nothing but shares of its pool and assets of it is issued by an operation. -/
theorem Operation.Settles.issues_eq_zero {op : Operation} {share : String}
    (h : op.Settles s call pool o) (hpool : pool.Avoids share) :
    Effect.issues o.settlement.effects share = 0 := by
  cases h with
  | deposited stored brings run =>
      obtain ⟨_, _, _, _, haccepted⟩ := Deposit.accepted_of_run run
      rw [haccepted.issues_eq, if_neg hpool.issues]
  | withdrawn paid => rw [paid.issues_eq, if_neg hpool.issues, Int.neg_zero]
  | swapped fills =>
      have hne : _ ≠ share := fun he => hpool.holds (he ▸ fills.pairs.ask_mem_denoms)
      rw [fills.effects_eq, SwapOrder.issues_effects _ _ _ fills.sound.charges.burn,
        Coin.total_singleton, if_neg hne, Int.neg_zero]

end Settled

/-! ## First phases -/

/-- Operations that lock no shares. -/
def Operation.Unlocked : Operation → Prop
  | deposit order => order.unlockingDuration = none
  | withdraw _ | swap _ => True

instance (op : Operation) : Decidable op.Unlocked :=
  match op with
  | .deposit order => inferInstanceAs (Decidable (order.unlockingDuration = none))
  | .withdraw _ | .swap _ => inferInstanceAs (Decidable True)

/-- How an operation runs in two states: it is settled alike, or it begins the same deposit of one
asset. -/
inductive Operation.RanAlike (s t : State) (call call' : Call) :
    Operation → Response → State → Response → State → Prop
  | settled {op : Operation} {pool : Pool} {o o' : Outcome} (settles : op.Settles s call pool o)
      (settles' : op.Settles t call' pool o') (same : o.Same o') :
      RanAlike s t call call' op o.settlement.toResponse (s.savePool o.pool)
        o'.settlement.toResponse (t.savePool o'.pool)
  | begun {order : DepositOrder} {pool : Pool} {coin : Coin} {sides : AssetPair} {q : SwapQuote}
      {st st' : Provision.Start} (begins : order.Begins s call pool coin sides q st)
      (begins' : order.Begins t call' pool coin sides q st') :
      RanAlike s t call call' (.deposit order)
        ⟨[.halfSwap st.swap], Provision.startAttributes call pool st.provision⟩
        { s with provisions := s.provisions.put call.transaction st.provision }
        ⟨[.halfSwap st'.swap], Provision.startAttributes call' pool st'.provision⟩
        { t with provisions := t.provisions.put call'.transaction st'.provision }

namespace DepositOrder

variable {order : DepositOrder} {s s' t t' : State} {call call' : Call} {r r' : Response}

theorem ranAlike_of_run (h : order.run call s = .ok r s') (h' : order.run call' t = .ok r' t')
    (hagree : s.AgreeAt order.pool t) (hlock : order.unlockingDuration = none)
    (hsender : call'.sender = call.sender) (hfunds : call'.funds = call.funds) :
    Operation.RanAlike s t call call' (.deposit order) r s' r' t' := by
  obtain ⟨-, -, pool, coins, hstored, hbrings, hproceeds⟩ := run_eq_ok_iff.1 h
  obtain ⟨-, -, pool', coins', hstored', hbrings', hproceeds'⟩ := run_eq_ok_iff.1 h'
  obtain rfl : pool' = pool := Option.some.inj (hstored'.symm.trans (hagree.record.trans hstored))
  obtain rfl : coins' = coins := hbrings'.unique hbrings hfunds
  cases hproceeds with
  | one begins =>
      cases hproceeds' with
      | several count => exact absurd rfl count
      | one begins' =>
          obtain ⟨sides, q, st, hbegins, rfl, rfl⟩ := exists_begins hstored hbrings begins
          obtain ⟨sides', q', st', hbegins', rfl, rfl⟩ := exists_begins hstored' hbrings' begins'
          obtain rfl : sides' = sides :=
            Except.ok.inj (hbegins'.started.paired.symm.trans hbegins.started.paired)
          have hquoted := hbegins'.started.quoted
          rw [hagree.config] at hquoted
          obtain rfl : q' = q := Except.ok.inj (hquoted.symm.trans hbegins.started.quoted)
          exact .begun hbegins hbegins'
  | several count run =>
      cases hproceeds' with
      | one begins' => exact absurd rfl count
      | several count' run' =>
          obtain rfl := Deposit.state_of_run run
          obtain rfl := Deposit.state_of_run run'
          have hdeposit : order.deposit call' coins' = order.deposit call coins' := by
            rw [deposit, Call.receiver, hsender, deposit, Call.receiver]
          obtain ⟨_, _, _, _, haccepted⟩ := Deposit.accepted_of_run run
          obtain ⟨_, _, _, _, haccepted'⟩ := Deposit.accepted_of_run (hdeposit ▸ run')
          exact .settled (.deposited hstored hbrings run) (.deposited hstored' hbrings' run')
            (haccepted.same haccepted' hagree.config (hagree.supply _ hstored) hlock)

end DepositOrder

/-- Where states agree, an operation that succeeds in both runs alike. -/
theorem Operation.ranAlike_of_run {op : Operation} {s t : State} {call call' : Call}
    {r r' : Response} {s' t' : State} (h : op.run call s = .ok r s')
    (h' : op.run call' t = .ok r' t') (hagree : s.AgreeAt op.poolName t) (hlock : op.Unlocked)
    (hsender : call'.sender = call.sender) (hfunds : call'.funds = call.funds) :
    op.RanAlike s t call call' r s' r' t' := by
  cases op with
  | deposit order => exact DepositOrder.ranAlike_of_run h h' hagree hlock hsender hfunds
  | withdraw identifier =>
      obtain ⟨o, ho, rfl⟩ := Action.bind_pure_eq_ok.1 h
      obtain ⟨o', ho', rfl⟩ := Action.bind_pure_eq_ok.1 h'
      obtain rfl := Withdrawal.state_of_run ho
      obtain rfl := Withdrawal.state_of_run ho'
      obtain ⟨pool, amount, hpaid⟩ := Withdrawal.paid_of_run ho
      obtain ⟨pool', amount', hpaid'⟩ := Withdrawal.paid_of_run ho'
      obtain ⟨rfl, hsame⟩ := hpaid.same hpaid' hagree hsender hfunds
      exact .settled (.withdrawn hpaid) (.withdrawn hpaid') hsame
  | swap order =>
      obtain ⟨o, ho, rfl⟩ := Action.bind_pure_eq_ok.1 h
      obtain ⟨o', ho', rfl⟩ := Action.bind_pure_eq_ok.1 h'
      obtain rfl := SwapOrder.state_of_run ho
      obtain rfl := SwapOrder.state_of_run ho'
      obtain ⟨offer, pool, sides, q, hfills⟩ := SwapOrder.fills_of_run ho
      obtain ⟨offer', pool', sides', q', hfills'⟩ := SwapOrder.fills_of_run ho'
      obtain ⟨rfl, hsame⟩ := hfills.same hfills' hagree hsender hfunds
      exact .settled (.swapped hfills) (.swapped hfills') hsame

/-! ## Writes -/

namespace State

variable {s s₁ s' t t' : State} {p p' pool : Pool} {effects effects' : List Effect} {name : String}

/-- A state with a new record of one pool, and in which effects have been carried out. -/
structure Wrote (s s' : State) (p : Pool) (effects : List Effect) : Prop where
  config : s'.config = s.config
  registry : s'.registry = s.registry.save p
  moved : s.ledger.Moved s'.ledger (Effect.gains effects) (Effect.issues effects)

theorem Wrote.trans (h : s.Wrote s₁ p effects) (h' : s₁.Wrote s' p' effects')
    (hid : p'.identifier = p.identifier) : s.Wrote s' p' (effects ++ effects') where
  config := h'.config.trans h.config
  registry := by
    rw [h'.registry, h.registry, Registry.save, Registry.save, Registry.save, hid, Table.put_put]
  moved := (h.moved.trans h'.moved).congr (fun a d => (Effect.gains_append _ _ a d).symm)
    fun d => (Effect.issues_append _ _ d).symm

/-- States that agree on a pool agree on it once the same was written in both. -/
theorem Wrote.agreeAt (h : s.Wrote s' p effects) (h' : t.Wrote t' p effects)
    (hagree : s.AgreeAt name t) (hstored : s.registry.get? name = some pool)
    (hid : p.identifier = name) (hshare : p.lpDenom = pool.lpDenom) : s'.AgreeAt name t' where
  config := by rw [h'.config, h.config, hagree.config]
  record := by
    rw [h'.registry, h.registry, Registry.save, Registry.save, hid, Table.get?_put, Table.get?_put,
      if_pos rfl, if_pos rfl]
  supply x hx := by
    rw [h.registry, Registry.save, hid, Table.get?_put, if_pos rfl, Option.some.injEq] at hx
    have hsupply := hagree.supply pool hstored
    rw [shareSupply, shareSupply, ← hshare, hx] at hsupply
    rw [shareSupply, shareSupply, h'.moved.supply, h.moved.supply, hsupply]

/-- What a transaction writes in two states: the same record of one pool, and the same effects,
which issue nothing that does not belong to the pool. -/
structure WroteAlike (s s' t t' : State) (pool p : Pool) (effects : List Effect) : Prop where
  left : s.Wrote s' p effects
  right : t.Wrote t' p effects
  identifier : p.identifier = pool.identifier
  apart : ∀ share, pool.Avoids share → Effect.issues effects share = 0

/-- A state in which the manager holds what the pool of a name records. -/
structure Covers (s : State) (name : String) : Prop where
  ledger : s.ledger.Sound
  held : ∀ p, s.registry.get? name = some p → ∀ denom ∈ p.denoms, p.reserve denom ≤ s.held denom

end State

/-! ## Half-swaps -/

/-- Half-swaps that differ in their provisions at most. -/
structure HalfSwap.Same (h h' : HalfSwap) : Prop where
  order : Chain.halfSwapOrder h' = Chain.halfSwapOrder h
  offer : h'.offer = h.offer

namespace Chain

variable {c c₁ c' m m₁ m' : Chain} {h h' : HalfSwap}

/-- A half-swap that gets through on one chain gets through on another that agrees on its pool and
holds what that pool records. -/
theorem trade_succeeds_of_agree (hsame : h.Same h') (hagree : c.state.AgreeAt h.pool m.state)
    (hpools : m.state.registry.Sound) (hcovers : m.state.Covers h.pool)
    (hwent : (trade h).succeeds c = true) : (trade h').succeeds m = true := by
  obtain ⟨u, htrade⟩ := exists_ok_after hwent
  obtain ⟨o, hrun, -⟩ := trade_eq_ok.1 htrade
  obtain ⟨⟨offer, pool, sides, q, hfunds, hallows, -⟩, -⟩ := SwapOrder.run_eq_ok_iff.1 hrun
  obtain rfl : h.offer = offer := List.singleton_inj.1 hfunds
  have hstored : m.state.registry.get? h.pool = some pool := hagree.record.trans hallows.stored
  have hallows' : (halfSwapOrder h').Allows m.state h'.offer pool sides q := by
    rw [hsame.order, hsame.offer]
    exact ⟨hagree.config ▸ hallows.enabled, hallows.offer_ne, hstored, hallows.paired,
      hagree.config ▸ hallows.quoted, hallows.allowed, hallows.offer_le, hallows.ask_ge⟩
  have hpairs := Pool.pairs_of_pair hallows'.paired
  have hreserve : pool.reserve h'.askDenom = sides.ask :=
    Coin.total_of_mem (hpools _ _ hstored).2.denoms_nodup hpairs.ask_mem
  have hheld : q.returned + q.charges.outgoing ≤ m.state.held h'.askDenom := by
    have hge := hallows'.ask_ge
    have hle : pool.reserve h'.askDenom ≤ m.state.held h'.askDenom :=
      hcovers.held _ hstored _ hpairs.ask_mem_denoms
    omega
  obtain ⟨m', happly, -⟩ := exists_swapped (Market.sound_of_quote hallows'.quoted) hcovers.ledger
    hheld managerAddress
    (pool.withAssets (SwapOrder.filledAssets pool sides h'.offer h'.askDenom q))
  have htrade' : trade h' m = .ok () m' := by
    refine trade_eq_ok.2 ⟨_, SwapOrder.run_eq_ok_iff.2 ⟨⟨_, _, _, _, rfl, hallows', rfl⟩, rfl⟩, ?_⟩
    simp only [SwapOrder.filled, receiver_halfSwap]
    exact happly
  exact Action.succeeds_of_ok htrade'

/-- What a trade writes. -/
theorem Traded.wrote {pool : Pool} {sides : AssetPair} {q : SwapQuote} {o : Outcome}
    (ht : Traded h c c' pool sides q o) : c.state.Wrote c'.state o.pool o.settlement.effects :=
  ⟨ht.books.config, ht.books.registry, ht.moved⟩

theorem Traded.same {pool pool' : Pool} {sides sides' : AssetPair} {q q' : SwapQuote}
    {o o' : Outcome} (ht : Traded h c c' pool sides q o) (ht' : Traded h' m m' pool' sides' q' o')
    (hsame : h.Same h') (hagree : c.state.AgreeAt h.pool m.state) : o.Same o' := by
  have hfills' := ht'.fills
  rw [hsame.order, hsame.offer] at hfills'
  obtain ⟨-, hout⟩ := ht.fills.same hfills' hagree rfl (congrArg ([·]) hsame.offer)
  exact hout

/-! ## Second phases -/

section Begun

variable {call call' : Call} {l l' : Ledger} {order : DepositOrder} {pool : Pool} {coin : Coin}
  {sides : AssetPair} {q : SwapQuote} {st st' : Provision.Start}

theorem sameSwap_of_begins (hb : order.Begins (c.funded l).state call pool coin sides q st)
    (hb' : order.Begins (m.funded l').state call' pool coin sides q st') :
    st.swap.Same st'.swap := by
  rw [hb.started.swap_eq, hb'.started.swap_eq]
  exact ⟨rfl, rfl⟩

theorem completion_eq_of_begins (hb : order.Begins (c.funded l).state call pool coin sides q st)
    (hb' : order.Begins (m.funded l').state call' pool coin sides q st')
    (hsender : call'.sender = call.sender) :
    st'.provision.completion = st.provision.completion := by
  rw [hb.started.provision_eq, hb'.started.provision_eq, hsender, Call.receiver, hsender]
  rfl

theorem refund_eq_of_begins (hb : order.Begins (c.funded l).state call pool coin sides q st)
    (hb' : order.Begins (m.funded l').state call' pool coin sides q st')
    (hsender : call'.sender = call.sender) (id id' : String) :
    (st'.provision.refund id').effects = (st.provision.refund id).effects := by
  rw [hb.started.provision_eq, hb'.started.provision_eq, hsender]
  rfl

/-- Two deposits of one asset that are completed write the same: the trades do, and then the
deposits of the other halves with what was returned. -/
theorem wroteAlike_of_completed {pool₁ pool₁' : Pool} {sides₁ sides₁' : AssetPair}
    {q₁ q₁' : SwapQuote} {o o' o₁ o₁' : Outcome}
    (hb : order.Begins (c.funded l).state call pool coin sides q st)
    (hb' : order.Begins (m.funded l').state call' pool coin sides q st')
    (hagree : (c.funded l).state.AgreeAt order.pool (m.funded l').state)
    (hsender : call'.sender = call.sender) (hlock : order.unlockingDuration = none)
    (hpools : c.state.registry.Sound) (hpools' : m.state.registry.Sound)
    (traded : Traded st.swap
      { c.noted l call.transaction st.provision with pending := c.pending.erase st.swap } c₁ pool₁
      sides₁ q₁ o₁)
    (traded' : Traded st'.swap
      { m.noted l' call'.transaction st'.provision with pending := m.pending.erase st'.swap } m₁
      pool₁' sides₁' q₁' o₁')
    {s s' : State} (complete : st.provision.complete st.swap.provision
      (Confirmation.taken c₁.state st.swap.provision) = .ok o s)
    (complete' : st'.provision.complete st'.swap.provision
      (Confirmation.taken m₁.state st'.swap.provision) = .ok o' s')
    (wrote : c₁.state.Wrote c'.state o.pool o.settlement.effects)
    (wrote' : m₁.state.Wrote m'.state o'.pool o'.settlement.effects) :
    ∃ p effects, State.WroteAlike (c.funded l).state c'.state (m.funded l').state m'.state pool p
      effects := by
  have hname : st.swap.pool = order.pool := by
    rw [hb.started.swap_eq]
    exact (hpools _ _ hb.stored).1
  have hswapped := traded.same traded' (sameSwap_of_begins hb hb')
    (hname ▸ ⟨hagree.config, hagree.record, hagree.supply⟩)
  have hstored : c.state.registry.get? st.swap.pool = some pool₁ := traded.fills.stored
  obtain rfl : pool₁ = pool := Option.some.inj (hstored.symm.trans (hname ▸ hb.stored))
  have hrefills := traded.refills_pool hpools hb.offer_nonneg
  have hfirst : (c.funded l).state.Wrote c₁.state o₁.pool o₁.settlement.effects :=
    ⟨traded.wrote.config, traded.wrote.registry, traded.wrote.moved⟩
  have hfirst' : (m.funded l').state.Wrote m₁.state o₁.pool o₁.settlement.effects := by
    rw [← hswapped.pool, ← hswapped.effects]
    exact ⟨traded'.wrote.config, traded'.wrote.registry, traded'.wrote.moved⟩
  have hmid := hfirst.agreeAt hfirst' hagree hb.stored
    (hrefills.identifier.trans (hpools _ _ hb.stored).1) hrefills.lpDenom
  have hcompleted := traded.completed hpools hb.offer_nonneg (hb.matches_swap hpools) complete
  have hcompleted' := traded'.completed hpools' hb'.offer_nonneg (hb'.matches_swap hpools')
    complete'
  rw [hswapped.pool] at hcompleted'
  have hrequest : st.provision.request = order.request := by rw [hb.started.provision_eq]
  have hstored₁ : c₁.state.registry.get? order.pool = some o₁.pool := by
    have hstored := hcompleted.stored
    rwa [hrequest] at hstored
  have hdeposited : o.Same o' := hcompleted.same hcompleted'
    (completion_eq_of_begins hb hb' hsender) hmid.config (hmid.supply _ hstored₁)
    (by rw [hrequest]; exact hlock)
  obtain ⟨_, _, _, _, haccepted⟩ := hcompleted.deposited
  have hrefilled := haccepted.refills_pool (hrefills.valid (hpools _ _ hb.stored).2)
    (Provision.completion_nonneg hb.coherent)
  rw [hdeposited.pool, hdeposited.effects] at wrote'
  refine ⟨o.pool, o₁.settlement.effects ++ o.settlement.effects,
    hfirst.trans wrote hrefilled.identifier, hfirst'.trans wrote' hrefilled.identifier,
    hrefilled.identifier.trans hrefills.identifier, fun share hshare => ?_⟩
  have hne : o₁.pool.lpDenom ≠ share := hrefills.lpDenom ▸ hshare.issues
  rw [Effect.issues_append, (Operation.Settles.swapped traded.fills).issues_eq_zero hshare,
    haccepted.issues_eq, if_neg hne, Int.add_zero]

/-- Two deposits of one asset that are paid back write the same: nothing but the payment. -/
theorem wroteAlike_of_refunded
    (hb : order.Begins (c.funded l).state call pool coin sides q st)
    (hb' : order.Begins (m.funded l').state call' pool coin sides q st')
    (hsender : call'.sender = call.sender) (hpools : c.state.registry.Sound)
    (moved : l.Moved c'.state.ledger
      (Effect.gains (st.provision.refund st.swap.provision).effects) (fun _ => 0))
    (moved' : l'.Moved m'.state.ledger
      (Effect.gains (st'.provision.refund st'.swap.provision).effects) (fun _ => 0))
    (hconfig : c'.state.config = c.state.config) (hconfig' : m'.state.config = m.state.config)
    (hregistry : c'.state.registry = c.state.registry)
    (hregistry' : m'.state.registry = m.state.registry) :
    ∃ p effects, State.WroteAlike (c.funded l).state c'.state (m.funded l').state m'.state pool p
      effects := by
  have hid : pool.identifier = order.pool := (hpools _ _ hb.stored).1
  have hkept : c.state.registry.save pool = c.state.registry :=
    Table.put_of_get? (hid ▸ hb.stored)
  have hkept' : m.state.registry.save pool = m.state.registry :=
    Table.put_of_get? (hid ▸ hb'.stored)
  rw [refund_eq_of_begins hb hb' hsender st.swap.provision] at moved'
  exact ⟨pool, (st.provision.refund st.swap.provision).effects,
    ⟨hconfig, hregistry.trans hkept.symm, moved⟩, ⟨hconfig', hregistry'.trans hkept'.symm, moved'⟩,
    rfl, fun _ _ => rfl⟩

/-- A half-swap gets through wherever the deposit that asks for it has begun, the pool is the same
and the manager holds what the pool records. -/
theorem trade_succeeds_of_begins
    (hb : order.Begins (c.funded l).state call pool coin sides q st)
    (hb' : order.Begins (m.funded l').state call' pool coin sides q st')
    (hagree : (c.funded l).state.AgreeAt order.pool (m.funded l').state)
    (hpools : m.state.registry.Sound) (hcovers : (m.funded l').state.Covers order.pool)
    (hwent : (trade st.swap).succeeds
      { c.noted l call.transaction st.provision with pending := c.pending.erase st.swap } = true) :
    (trade st'.swap).succeeds
      { m.noted l' call'.transaction st'.provision with pending := m.pending.erase st'.swap } =
        true := by
  have hname : st.swap.pool = order.pool := by
    rw [hb.started.swap_eq]
    exact (hpools _ _ hb'.stored).1
  refine trade_succeeds_of_agree (sameSwap_of_begins hb hb') ?_ hpools ?_ hwent
  · rw [hname]
    exact ⟨hagree.config, hagree.record, hagree.supply⟩
  · rw [hname]
    exact ⟨hcovers.ledger, hcovers.held⟩

/-- A deposit of one asset that is confirmed at once ends the same way on chains that agree on its
pool, if the manager holds what the pool records. -/
theorem wroteAlike_of_confirmed
    (hb : order.Begins (c.funded l).state call pool coin sides q st)
    (hb' : order.Begins (m.funded l').state call' pool coin sides q st')
    (hagree : (c.funded l).state.AgreeAt order.pool (m.funded l').state)
    (hsender : call'.sender = call.sender) (hlock : order.unlockingDuration = none)
    (hpools : c.state.registry.Sound) (hpools' : m.state.registry.Sound)
    (hcovers : (c.funded l).state.Covers order.pool)
    (hcovers' : (m.funded l').state.Covers order.pool)
    (hc : Confirmed st.swap (c.noted l call.transaction st.provision) c')
    (hm : Confirmed st'.swap (m.noted l' call'.transaction st'.provision) m') :
    ∃ p effects, State.WroteAlike (c.funded l).state c'.state (m.funded l').state m'.state pool p
      effects := by
  cases hc with
  | completed went traded waiting complete moved books =>
      obtain rfl := Transacted.provision_noted hb waiting
      have hwent := trade_succeeds_of_begins hb hb' hagree hpools' hcovers' went
      cases hm with
      | completed went' traded' waiting' complete' moved' books' =>
          obtain rfl := Transacted.provision_noted hb' waiting'
          exact wroteAlike_of_completed hb hb' hagree hsender hlock hpools hpools' traded traded'
            complete complete' ⟨books.config, books.registry, moved⟩
            ⟨books'.config, books'.registry, moved'⟩
      | refunded failed' waiting' moved' books' =>
          exact absurd (hwent.symm.trans failed') (by decide)
  | refunded failed waiting moved books =>
      obtain rfl := Transacted.provision_noted hb waiting
      cases hm with
      | completed went' traded' waiting' complete' moved' books' =>
          have hwent := trade_succeeds_of_begins hb' hb hagree.symm hpools hcovers went'
          exact absurd (hwent.symm.trans failed) (by decide)
      | refunded failed' waiting' moved' books' =>
          obtain rfl := Transacted.provision_noted hb' waiting'
          exact wroteAlike_of_refunded hb hb' hsender hpools moved moved' books.config books'.config
            books.registry books'.registry

end Begun

/-! ## Transactions -/

/-- A chain that confirms half-swaps at once, and on which the manager holds what the pool of a name
records. -/
structure Steady (c : Chain) (name : String) : Prop where
  auto : c.autoConfirm = true
  registry : c.state.registry.Sound
  covers : c.state.Covers name

/-- The funds of a user add to what the manager holds. -/
theorem Steady.covers_funded {name : String} (hc : c.Steady name) {call : Call}
    (hcall : call.FromUser) {l : Ledger}
    (hpaid : Ledger.transfer call.sender managerAddress call.funds c.state.ledger = .ok () l) :
    (c.funded l).state.Covers name where
  ledger := hc.covers.ledger.transfer hcall.funds_nonneg hpaid
  held p hp denom hdenom := by
    have hheld := hc.covers.held p hp denom hdenom
    have hnonneg : 0 ≤ Coin.total denom call.funds := Coin.total_nonneg hcall.funds_nonneg
    change _ ≤ l.balance managerAddress denom
    rw [(moved_of_transfer hpaid).balance, gainOf_self, gainOf_of_ne hcall.sender_ne]
    rw [State.held] at hheld
    omega

/-- What a transaction comes to: a new record of one pool, gains of addresses, and issues. -/
structure CameTo (c c' : Chain) (p : Pool) (gain : String → String → Int) (issue : String → Int) :
    Prop where
  config : c'.state.config = c.state.config
  registry : c'.state.registry = c.state.registry.save p
  moved : c.state.ledger.Moved c'.state.ledger gain issue

theorem cameTo_of_wrote {call : Call} {l : Ledger} {p : Pool} {effects : List Effect}
    (hpaid : Ledger.transfer call.sender managerAddress call.funds c.state.ledger = .ok () l)
    (hwrote : (c.funded l).state.Wrote c'.state p effects) :
    CameTo c c' p (fun a d => fundsGain call a d + Effect.gains effects a d)
      (Effect.issues effects) :=
  ⟨hwrote.config, hwrote.registry, ((moved_of_transfer hpaid).trans hwrote.moved).congr
    (fun _ _ => rfl) fun _ => Int.zero_add _⟩

/-- What a confirmed half-swap leaves, of a deposit that began in a transaction. -/
theorem confirmed_of_applyMessages {h : HalfSwap} {u : Unit} (hauto : c.autoConfirm = true)
    (happly : applyMessages [.halfSwap h] c = .ok u c') : Confirmed h c c' := by
  rw [applyMessages_halfSwap, if_pos hauto] at happly
  obtain ⟨_, _, hrun, hpure⟩ := Action.bind_eq_ok.1 happly
  obtain ⟨-, rfl⟩ := Action.pure_eq_ok.1 hpure
  exact confirmed_of_runHalfSwap hrun

/-- An operation that is settled at once writes its outcome. -/
theorem wrote_of_applyEffects {l : Ledger} {o : Outcome} {u : Unit}
    (happly : applyEffects o.settlement.effects
      { c with state := (c.funded l).state.savePool o.pool } = .ok u c') :
    (c.funded l).state.Wrote c'.state o.pool o.settlement.effects := by
  have hbooks := sameBooks_of_applyEffects happly
  have hmoved := moved_of_applyEffects happly
  exact ⟨hbooks.config, hbooks.registry, hmoved⟩

/-- A transaction that locks nothing comes to the same on steady chains that agree on its pool. -/
theorem cameTo_of_transact {op : Operation} {call call' : Call} {r r' : Response}
    (hc : c.Steady op.poolName) (hm : m.Steady op.poolName)
    (hagree : c.state.AgreeAt op.poolName m.state) (hlock : op.Unlocked) (hcall : call.FromUser)
    (hsender : call'.sender = call.sender) (hfunds : call'.funds = call.funds)
    (h : transact op call c = .ok r c') (h' : transact op call' m = .ok r' m') :
    ∃ pool p gain issue, c.state.registry.get? op.poolName = some pool ∧
      p.identifier = pool.identifier ∧ (∀ share, pool.Avoids share → issue share = 0) ∧
        CameTo c c' p gain issue ∧ CameTo m m' p gain issue := by
  obtain ⟨l, s, hpaid, hrun, hmessages⟩ := transact_eq_ok.1 h
  obtain ⟨l', t, hpaid', hrun', hmessages'⟩ := transact_eq_ok.1 h'
  have hcall' : call'.FromUser := ⟨hsender ▸ hcall.sender_ne, hfunds ▸ hcall.funds_valid⟩
  have hfunded : (c.funded l).state.AgreeAt op.poolName (m.funded l').state := by
    refine ⟨hagree.config, hagree.record, fun p hp => ?_⟩
    have hsupply : m.state.ledger.supply p.lpDenom = c.state.ledger.supply p.lpDenom :=
      hagree.supply p hp
    change l'.supply p.lpDenom = l.supply p.lpDenom
    rw [(moved_of_transfer hpaid).supply, (moved_of_transfer hpaid').supply, hsupply]
  have hran := Operation.ranAlike_of_run hrun hrun' hfunded hlock hsender hfunds
  obtain ⟨pool, hstored, p, effects, hwrote⟩ : ∃ pool,
      c.state.registry.get? op.poolName = some pool ∧ ∃ p effects,
        State.WroteAlike (c.funded l).state c'.state (m.funded l').state m'.state pool p
          effects := by
    generalize hanswer : (r, s) = answer at hran
    generalize hanswer' : (r', t) = answer' at hran
    cases hran with
    | settled settles settles' same =>
        cases hanswer
        cases hanswer'
        rw [applyMessages_toResponse] at hmessages hmessages'
        have hwrote := wrote_of_applyEffects hmessages
        have hwrote' := wrote_of_applyEffects hmessages'
        rw [same.pool, same.effects] at hwrote'
        exact ⟨_, settles.stored_name, _, _, hwrote, hwrote',
          (settles.refills_pool hc.registry hcall.funds_nonneg).identifier,
          fun _ => settles.issues_eq_zero⟩
    | begun begins begins' =>
        cases hanswer
        cases hanswer'
        exact ⟨_, begins.stored, wroteAlike_of_confirmed begins begins' hfunded hsender hlock
          hc.registry hm.registry (hc.covers_funded hcall hpaid) (hm.covers_funded hcall' hpaid')
          (confirmed_of_applyMessages hc.auto hmessages)
          (confirmed_of_applyMessages hm.auto hmessages')⟩
  have hgain : fundsGain call' = fundsGain call := by
    funext a d
    rw [fundsGain, fundsGain, hsender, hfunds]
  have hright := cameTo_of_wrote hpaid' hwrote.right
  rw [hgain] at hright
  exact ⟨pool, p, _, _, hstored, hwrote.identifier, hwrote.apart,
    cameTo_of_wrote hpaid hwrote.left, hright⟩

end Chain

end MarketMaker
