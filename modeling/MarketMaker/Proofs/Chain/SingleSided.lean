import MarketMaker.Proofs.Chain.Alike
import MarketMaker.Proofs.Chain.Reachable
import MarketMaker.Proofs.Chain.Settlement
import MarketMaker.Proofs.Market

/-! # A deposit of one asset, cut half-way

On a chain that confirms at once, a deposit of one coin trades one half of it and deposits the other
half with the return. It is cut where the half is traded and the coins of the second deposit are
with the manager. It gets there exactly if it is ready, and what is left to do then is one
deposit. -/

namespace MarketMaker

open Ledger

/-- The half of a coin that is swapped, rounded down. -/
def Coin.half (coin : Coin) : Coin := ⟨coin.denom, coin.amount / 2⟩

/-- The half of a coin that is kept. -/
def Coin.rest (coin : Coin) : Coin := ⟨coin.denom, coin.amount - coin.amount / 2⟩

theorem Coin.single_half_add_rest (coin : Coin) (address a d : String) :
    single address coin.half a d + single address coin.rest a d = single address coin a d := by
  by_cases h : address = a ∧ coin.denom = d
  · simp only [single, Coin.half, Coin.rest, h, and_self, ite_true]
    omega
  · simp only [single, Coin.half, Coin.rest, h, ite_false, Int.add_zero]

/-- The swap of the half of a deposit, made by the depositor. -/
def DepositOrder.halfSwap (order : DepositOrder) (ask : String) : SwapOrder where
  pool := order.pool
  askDenom := ask
  maxSpread := order.maxSpread

/-- A swap pays its return, the collected fees and the burned fee, all in the asked denom. -/
theorem SwapOrder.payAll_effects (config : Config) (receiver ask : String) {q : SwapQuote}
    (h : q.Sound) :
    Effect.PayAll ask (effects config receiver ask q) (q.returned + q.charges.outgoing) := by
  have hpay : ∀ (x : Int) (e : Effect), 0 ≤ x → e.Pays ask x →
      Effect.PayAll ask (if 0 < x then [e] else []) x := by
    intro x e hx he
    split
    · have hone := Effect.PayAll.cons he hx .nil
      rwa [Int.add_zero] at hone
    · obtain rfl : x = 0 := by omega
      exact .nil
  have hsent := (hpay _ _ h.returned (.send receiver)).append
    (hpay _ _ h.charges.collected (.send config.feeCollector))
  have hall := hsent.append (hpay _ _ h.charges.burn .burn)
  rwa [Int.add_assoc, ← Charges.outgoing_eq_collected_add_burn] at hall

/-- A deposit that succeeds issues shares. -/
theorem Deposit.exists_mint_of_run {d : Deposit} {s s' : State} {pool : Pool} {o : Outcome}
    (h : d.run pool s = .ok o s') :
    ∃ amount recipient, 0 < amount ∧
      .mintShare pool.lpDenom amount recipient ∈ o.settlement.effects := by
  obtain ⟨_, _, share, issued, haccepted⟩ := accepted_of_run h
  have hne := (share_eq_ok haccepted.share_eq).1
  have hnonneg := share_nonneg haccepted.share_eq
  have hissued := haccepted.issued_eq
  rw [haccepted.effects_eq]
  unfold shareEffects at hissued
  split at hissued
  · cases hissued
    exact ⟨share, d.receiver, by omega, by simp⟩
  · obtain ⟨_, -, hissued⟩ := Result.bind_eq_ok.1 hissued
    cases hissued
    exact ⟨share, managerAddress, by omega, by simp⟩

namespace Chain

variable {c c' m m' : Chain} {sender : String} {order : DepositOrder} {coin : Coin} {ask : String}
  {pool : Pool} {sides : AssetPair} {q : SwapQuote}

/-- A deposit of one coin into a pool of two assets, and the price of its half. -/
structure Priced (c : Chain) (sender : String) (order : DepositOrder) (coin : Coin) (ask : String)
    (pool : Pool) (sides : AssetPair) (q : SwapQuote) : Prop where
  regular : c.Regular
  auto : c.autoConfirm = true
  collector : c.state.config.feeCollector ≠ managerAddress
  tolerance : 0 ≤ c.state.config.driftTolerance
  held : ∀ denom, c.state.registry.reserves denom ≤ c.state.held denom
  sender_ne : sender ≠ managerAddress
  stored : c.state.registry.get? order.pool = some pool
  two : pool.assets.length = 2
  coin_valid : coin.Valid
  paired : pool.pair coin.denom ask = .ok sides
  quoted : (pool.market sides).quote c.state.config.solver (coin.amount / 2) pool.curve = .ok q
  returned_pos : 0 < q.returned

/-- What lets both ways come to the second deposit. -/
structure Ready (c : Chain) (sender : String) (order : DepositOrder) (coin : Coin) (ask : String)
    (pool : Pool) (sides : AssetPair) (q : SwapQuote) : Prop where
  funded : coin.amount ≤ c.state.ledger.balance sender coin.denom
  enabled : c.state.config.depositsEnabled = true
  lockable : ∀ call : Call, call.sender = sender → order.checkLock call = .ok ()
  allowed : (order.halfSwap ask).Allows c.state coin.half pool sides q

/-- The pool once the half is traded. -/
def tradedPool (coin : Coin) (ask : String) (pool : Pool) (sides : AssetPair) (q : SwapQuote) :
    Pool :=
  pool.withAssets (SwapOrder.filledAssets pool sides coin.half ask q)

/-- Where both ways come to: the half is traded, and the manager has the coins of the second
deposit. -/
structure Midway (c m : Chain) (sender : String) (coin : Coin) (ask : String) (pool : Pool)
    (sides : AssetPair) (q : SwapQuote) : Prop where
  config : m.state.config = c.state.config
  registry : m.state.registry = c.state.registry.save (tradedPool coin ask pool sides q)
  positions : m.positions = c.positions
  locked : m.state.ledger.positions = c.state.ledger.positions
  moved : c.state.ledger.Moved m.state.ledger
    (fun a d => gainOf managerAddress [coin] a d - gainOf sender [coin] a d +
      (single c.state.config.feeCollector ⟨ask, q.charges.collected⟩ a d -
        single managerAddress ⟨ask, q.charges.outgoing⟩ a d))
    (fun d => -Coin.total d [⟨ask, q.charges.burn⟩])

theorem Midway.alike (h : Midway c m sender coin ask pool sides q)
    (h' : Midway c m' sender coin ask pool sides q) : m.Alike m' where
  config := h.config.trans h'.config.symm
  registry := h.registry.trans h'.registry.symm
  positions := h.positions.trans h'.positions.symm
  ledger :=
    { balance := fun a d => (h.moved.balance a d).trans (h'.moved.balance a d).symm
      supply := fun d => (h.moved.supply d).trans (h'.moved.supply d).symm
      positions := h.locked.trans h'.locked.symm }

/-! ## What the price comes to -/

namespace Priced

variable (h : Priced c sender order coin ask pool sides q)
include h

theorem valid : pool.Valid := (h.regular.registry _ _ h.stored).2

theorem identifier : pool.identifier = order.pool := (h.regular.registry _ _ h.stored).1

theorem pairs : pool.Pairs coin.denom ask sides := Pool.pairs_of_pair h.paired

theorem quote_sound : q.Sound := Market.sound_of_quote h.quoted

/-- The manager holds what the pool records of the asked denom. -/
theorem ask_le_held : sides.ask ≤ c.state.held ask := by
  have hreserve : pool.reserve ask = sides.ask :=
    Coin.total_of_mem h.valid.denoms_nodup h.pairs.ask_mem
  have hle := Table.measureAt_le_sumBy (f := fun p : Pool => p.reserve ask)
    (fun id p hp => Pool.reserve_nonneg (h.regular.registry id p hp).2 ask) order.pool
  rw [Table.measureAt_of_get? h.stored, hreserve] at hle
  exact Int.le_trans hle (h.held ask)

end Priced

namespace Ready

variable (hr : Ready c sender order coin ask pool sides q)
  (h : Priced c sender order coin ask pool sides q)
include hr

theorem half_pos (h : Priced c sender order coin ask pool sides q) : 0 < coin.amount / 2 := by
  have hne : coin.amount / 2 ≠ 0 := hr.allowed.offer_ne
  have hnonneg := h.coin_valid.2.1
  omega

theorem rest_pos (h : Priced c sender order coin ask pool sides q) : 0 < coin.rest.amount := by
  have hhalf := hr.half_pos h
  dsimp only [Coin.rest]
  omega

include h

theorem paid_le_held : q.returned + q.charges.outgoing ≤ c.state.held ask :=
  Int.le_trans hr.allowed.ask_ge h.ask_le_held

/-- The half can be priced and reported, and there is some of both assets. -/
theorem bounds : 0 < sides.offer ∧ 0 < sides.ask ∧ q.Fits := by
  have hmarket := h.valid.market h.pairs
  have hhalf := Int.le_of_lt (hr.half_pos h)
  have hask : 0 < (pool.market sides).ask := by
    have hpaid := hr.allowed.ask_ge
    have houtgoing := h.quote_sound.charges.outgoing
    have hreturned := h.returned_pos
    change 0 < sides.ask
    omega
  have hoffer := hmarket.offer_pos h.quoted hask hhalf
  obtain ⟨hspread, -⟩ := hmarket.within_reserve h.quoted (Int.le_of_lt hask) hhalf
  obtain ⟨hreturned, hmax, -⟩ := h.quote_sound
  have hle : q.spread ≤ q.returned :=
    Spread.le_returned_of_check hr.allowed.allowed hreturned hspread
  have hcharges := hmarket.charges_fit h.quoted (Int.le_of_lt hask) hhalf
  exact ⟨hoffer, hask, ⟨hreturned, hmax⟩, ⟨hspread, Int.le_trans hle hmax⟩, hcharges⟩

end Ready

/-! ## Swaps that are carried out -/

/-- A chain in which a swap was carried out. -/
structure Swapped (c c' : Chain) (receiver ask : String) (traded : Pool) (q : SwapQuote) :
    Prop where
  books : SameBooks { c with state := c.state.savePool traded } c'
  positions : c'.positions = c.positions
  locked : c'.state.ledger.positions = c.state.ledger.positions
  moved : c.state.ledger.Moved c'.state.ledger
    (fun a d => single receiver ⟨ask, q.returned⟩ a d +
      single c.state.config.feeCollector ⟨ask, q.charges.collected⟩ a d -
        single managerAddress ⟨ask, q.returned + q.charges.outgoing⟩ a d)
    (fun d => -Coin.total d [⟨ask, q.charges.burn⟩])

theorem swapped_of_applyEffects {receiver : String} {traded : Pool} {u : Unit} (hq : q.Sound)
    (h : applyEffects (SwapOrder.effects c.state.config receiver ask q)
      { c with state := c.state.savePool traded } = .ok u c') :
    Swapped c c' receiver ask traded q := by
  obtain ⟨hpositions, hlocked⟩ :=
    positions_of_payAll (SwapOrder.payAll_effects c.state.config receiver ask hq) h
  refine ⟨sameBooks_of_applyEffects h, hpositions, hlocked, ?_⟩
  exact (moved_of_applyEffects h).congr
    (fun a d => SwapOrder.gains_effects c.state.config receiver ask hq a d)
    (fun d => SwapOrder.issues_effects c.state.config receiver ask hq.charges.burn d)

/-- A swap is carried out if the manager holds what it pays. -/
theorem exists_swapped (hq : q.Sound) (hsound : c.state.ledger.Sound)
    (hheld : q.returned + q.charges.outgoing ≤ c.state.held ask) (receiver : String)
    (traded : Pool) :
    ∃ c', applyEffects (SwapOrder.effects c.state.config receiver ask q)
        { c with state := c.state.savePool traded } = .ok () c' ∧
      Swapped c c' receiver ask traded q := by
  have hpay := SwapOrder.payAll_effects c.state.config receiver ask hq
  obtain ⟨c', happly⟩ := exists_applyEffects_of_payAll
    (c := { c with state := c.state.savePool traded }) hpay hsound hheld
  exact ⟨c', happly, swapped_of_applyEffects hq happly⟩

/-! ## The deposit of one coin -/

/-- The deposit that both ways end with. -/
def restDeposit (sender : String) (order : DepositOrder) (coin : Coin) (ask : String)
    (returned : Int) : Deposit :=
  order.deposit ⟨sender, [coin], ""⟩ [coin.rest, ⟨ask, returned⟩]

/-- What the manager holds once it has the coin. -/
theorem held_funded (hsender : sender ≠ managerAddress) {l : Ledger}
    (h : Ledger.transfer sender managerAddress [coin] c.state.ledger = .ok () l) (denom : String) :
    l.balance managerAddress denom = c.state.held denom + Coin.total denom [coin] := by
  rw [(moved_of_transfer h).balance, gainOf_self, gainOf_of_ne hsender, Int.sub_zero, State.held]

/-- Coins of another denom leave the manager with what the trade pays. -/
theorem Ready.paid_le_funded (hr : Ready c sender order coin ask pool sides q)
    (h : Priced c sender order coin ask pool sides q) {x : Coin} (hx : x.denom ≠ ask) {l : Ledger}
    (hpaid : Ledger.transfer sender managerAddress [x] c.state.ledger = .ok () l) :
    q.returned + q.charges.outgoing ≤ l.balance managerAddress ask := by
  rw [held_funded h.sender_ne hpaid, Coin.total_singleton, if_neg hx, Int.add_zero]
  exact hr.paid_le_held h

/-- A first phase that went through: the funds are with the manager, and a provision is kept. -/
structure Begun (c : Chain) (sender : String) (order : DepositOrder) (coin : Coin) (pool : Pool)
    (sides : AssetPair) (q : SwapQuote) (l : Ledger) (st : Provision.Start) : Prop where
  paid : Ledger.transfer sender managerAddress [coin] c.state.ledger = .ok () l
  begins : order.Begins (c.counted.funded l).state (c.nextCall sender [coin]) pool coin sides q st
  run : order.run (c.nextCall sender [coin]) (c.counted.funded l).state =
    .ok ⟨[.halfSwap st.swap], Provision.startAttributes (c.nextCall sender [coin]) pool
      st.provision⟩ (c.counted.noted l (c.nextCall sender [coin]).transaction st.provision).state

theorem Ready.exists_begun (hr : Ready c sender order coin ask pool sides q)
    (h : Priced c sender order coin ask pool sides q) :
    ∃ l st, Begun c sender order coin pool sides q l st := by
  obtain ⟨hoffer, hask, hfits⟩ := hr.bounds h
  have hpos : 0 < coin.amount := by
    have hhalf := hr.half_pos h
    omega
  obtain ⟨l, hl⟩ := h.regular.ledger.exists_transfer managerAddress hr.funded
  have hother := Provision.otherDenom_eq h.pairs h.two
  have hheld : q.charges.outgoing < (c.counted.funded l).state.held ask := by
    have hpaid := hr.paid_le_funded h h.pairs.ne hl
    have hreturned := h.returned_pos
    change q.charges.outgoing < l.balance managerAddress ask
    omega
  obtain ⟨st, hst, hstarted⟩ := Provision.exists_start (s := (c.counted.funded l).state)
    (c.nextCall sender [coin]) ((c.nextCall sender [coin]).receiver order.receiver) order.request
    h.two (h.pairs.zero_not_mem_balances h.two hoffer hask) (hother ▸ h.paired) h.quoted hfits
    (hother ▸ hheld)
  have hfresh : c.state.provisions.get? (c.nextCall sender [coin]).transaction = none :=
    h.regular.named.fresh
  have hbrings : DepositOrder.Brings (c.nextCall sender [coin]) pool [coin] :=
    (DepositOrder.Brings.singleton_iff rfl h.coin_valid).2
      ⟨hpos, h.pairs.offer_mem_denoms, rfl⟩
  refine ⟨l, st, hl, ⟨h.stored, hbrings, hstarted, hfresh⟩, ?_⟩
  rw [DepositOrder.run_singleton_eq_ok rfl h.coin_valid]
  have hbegin := DepositOrder.begin_eq_ok.2 ⟨st, hst, hfresh, rfl, rfl⟩
  exact ⟨hr.enabled, hr.lockable _ rfl, pool, h.stored, hpos, h.pairs.offer_mem_denoms, hbegin⟩

namespace Begun

variable {l : Ledger} {st : Provision.Start}

theorem swap_eq (hb : Begun c sender order coin pool sides q l st)
    (h : Priced c sender order coin ask pool sides q) :
    st.swap = ⟨(c.nextCall sender [coin]).transaction, order.pool, coin.half, ask,
      order.maxSpread⟩ := by
  rw [hb.begins.started.swap_eq, h.identifier, Provision.otherDenom_eq h.pairs h.two]
  rfl

/-- The provision expects what the manager holds then, less the fees that go out. -/
theorem provision_eq (hb : Begun c sender order coin pool sides q l st)
    (h : Priced c sender order coin ask pool sides q) :
    st.provision =
      { sender
        receiver := (c.nextCall sender [coin]).receiver order.receiver
        offerDenom := coin.denom
        askDenom := ask
        expectedOfferBalance := l.balance managerAddress coin.denom
        expectedAskBalance :=
          Checked.subFloor (l.balance managerAddress ask) q.charges.outgoing
        offerHalf := coin.half.amount
        keptOffer := coin.rest.amount
        expectedReturn := q.returned
        request := order.request } := by
  rw [hb.begins.started.provision_eq, Provision.otherDenom_eq h.pairs h.two]
  rfl

theorem completion_eq (hb : Begun c sender order coin pool sides q l st)
    (h : Priced c sender order coin ask pool sides q) :
    st.provision.completion = restDeposit sender order coin ask q.returned := by
  rw [hb.provision_eq h]
  rfl

end Begun

/-- The chain in which the half is traded. -/
def trading (c : Chain) (l : Ledger) (id : String) (st : Provision.Start) : Chain :=
  { c.counted.noted l id st.provision with pending := c.pending.erase st.swap }

/-- Half-way is where the half is traded and its return stays with the manager. -/
theorem midway_of_swapped {l : Ledger} {id : String} {st : Provision.Start}
    (hpaid : Ledger.transfer sender managerAddress [coin] c.state.ledger = .ok () l)
    (h : Swapped (c.trading l id st) m managerAddress ask (tradedPool coin ask pool sides q) q) :
    Midway c m sender coin ask pool sides q where
  config := h.books.config
  registry := h.books.registry
  positions := h.positions
  locked := h.locked.trans (positions_of_transfer hpaid)
  moved := by
    refine ((moved_of_transfer hpaid).trans h.moved).congr (fun a d => ?_) fun _ => Int.zero_add _
    rw [single_add]
    dsimp only [trading, noted, counted]
    omega

/-- What lets the depositor's own swap through lets the half-swap through. -/
theorem Begun.trade_of_applyEffects {l : Ledger} {st : Provision.Start}
    (hb : Begun c sender order coin pool sides q l st)
    (h : Priced c sender order coin ask pool sides q)
    (hallowed : (order.halfSwap ask).Allows c.state coin.half pool sides q) {id : String}
    (happly : applyEffects (SwapOrder.effects c.state.config managerAddress ask q)
      { c.trading l id st with
        state := (c.trading l id st).state.savePool (tradedPool coin ask pool sides q) } =
          .ok () m) :
    trade st.swap (c.trading l id st) = .ok () m := by
  have hallows : (halfSwapOrder st.swap).Allows (c.trading l id st).state coin.half pool sides
      q := by
    rw [hb.swap_eq h]
    exact hallowed.congr rfl rfl rfl rfl rfl rfl
  have hfunds : (halfSwapCall st.swap).funds = [coin.half] := by
    rw [hb.swap_eq h]
    rfl
  have hask : (halfSwapOrder st.swap).askDenom = ask := by
    rw [hb.swap_eq h]
    rfl
  refine trade_eq_ok.2 ⟨_, SwapOrder.run_eq_ok_iff.2 ⟨⟨_, _, _, _, hfunds, hallows, rfl⟩, rfl⟩, ?_⟩
  simp only [SwapOrder.filled, receiver_halfSwap, hask]
  exact happly

/-- The half is traded, and its return stays with the manager. -/
theorem Ready.exists_trade (hr : Ready c sender order coin ask pool sides q)
    (h : Priced c sender order coin ask pool sides q) {l : Ledger} {st : Provision.Start}
    (hb : Begun c sender order coin pool sides q l st) :
    ∃ m, trade st.swap (c.trading l (c.nextCall sender [coin]).transaction st) = .ok () m ∧
      Midway c m sender coin ask pool sides q ∧
        m.state.provisions.get? st.swap.provision = some st.provision := by
  have hsound : l.Sound :=
    h.regular.ledger.transfer (List.forall_mem_singleton.2 h.coin_valid.2.1) hb.paid
  obtain ⟨m, happly, hswapped⟩ := exists_swapped
    (c := c.trading l (c.nextCall sender [coin]).transaction st) h.quote_sound hsound
    (hr.paid_le_funded h h.pairs.ne hb.paid) managerAddress (tradedPool coin ask pool sides q)
  refine ⟨m, hb.trade_of_applyEffects h hr.allowed happly, midway_of_swapped hb.paid hswapped, ?_⟩
  rw [hswapped.books.provisions, hb.swap_eq h]
  change (c.state.provisions.put _ st.provision).get? _ = _
  rw [Table.get?_put, if_pos rfl]

/-- The pool of the second deposit is the traded one. -/
theorem Midway.stored (hm : Midway c m sender coin ask pool sides q)
    (h : Priced c sender order coin ask pool sides q) :
    m.state.registry.get? order.pool = some (tradedPool coin ask pool sides q) := by
  have hid : (tradedPool coin ask pool sides q).identifier = order.pool := h.identifier
  rw [hm.registry, Registry.save, hid, Table.get?_put, if_pos rfl]

/-- Half-way the manager holds what the provision expects: the deposit, and of the other denom what
it had less the fees that went out. -/
theorem Midway.as_expected (hm : Midway c m sender coin ask pool sides q)
    (h : Priced c sender order coin ask pool sides q)
    (hr : Ready c sender order coin ask pool sides q) {l : Ledger} {st : Provision.Start}
    (hb : Begun c sender order coin pool sides q l st) :
    m.state.held st.provision.offerDenom = st.provision.expectedOfferBalance ∧
      m.state.held st.provision.askDenom = st.provision.expectedAskBalance := by
  have hmoved := hm.moved.balance managerAddress
  have hfunded := held_funded h.sender_ne hb.paid
  simp only [gainOf_self, gainOf_of_ne h.sender_ne, single_of_ne h.collector, single_self,
    Coin.total_singleton] at hmoved hfunded
  have hne := h.pairs.ne
  have hpaid := hr.paid_le_held h
  have hreturned := h.returned_pos
  rw [hb.provision_eq h]
  dsimp only
  constructor
  · rw [hfunded, State.held, hmoved, if_neg hne.symm, State.held]
    simp
  · rw [hfunded, State.held, hmoved, if_neg hne, if_pos rfl, Checked.subFloor]
    rw [State.held] at hpaid ⊢
    omega

/-- Half-way, the second phase is the deposit that is left. -/
theorem Midway.complete_iff (hm : Midway c m sender coin ask pool sides q)
    (h : Priced c sender order coin ask pool sides q)
    (hr : Ready c sender order coin ask pool sides q) {l : Ledger} {st : Provision.Start}
    (hb : Begun c sender order coin pool sides q l st) {id : String} {o : Outcome} {s' : State} :
    st.provision.complete id (Confirmation.taken m.state id) = .ok o s' ↔ ∃ o',
      (restDeposit sender order coin ask q.returned).run (tradedPool coin ask pool sides q)
          (Confirmation.taken m.state id) = .ok o' s' ∧
        o = { o' with
          settlement.attributes := o'.settlement.attributes ++ [("provision_id", id)] } := by
  obtain ⟨hoffer, hask⟩ := hm.as_expected h hr hb
  have htolerance : 0 ≤ m.state.config.driftTolerance := hm.config ▸ h.tolerance
  have hstored : m.state.registry.get? st.provision.request.pool =
      some (tradedPool coin ask pool sides q) := by
    rw [hb.provision_eq h]
    exact hm.stored h
  rw [← hb.completion_eq h]
  exact Provision.complete_as_expected id hoffer hask htolerance hstored

/-- A deposit that has begun is settled by its half-swap. -/
theorem Begun.settle_iff {l : Ledger} {st : Provision.Start}
    (hb : Begun c sender order coin pool sides q l st) (hauto : c.autoConfirm = true)
    {effects : List Effect} :
    settle sender [coin] (.deposit order) c = .ok effects c' ↔ ∃ settlement,
      runHalfSwap st.swap (c.counted.noted l (c.nextCall sender [coin]).transaction
        st.provision) = .ok settlement c' ∧ effects = settlement.effects := by
  have hnoted : (c.counted.noted l (c.nextCall sender [coin]).transaction
      st.provision).autoConfirm = true := hauto
  rw [settle_eq_ok, settleCall_eq_ok, ← settleMessages_halfSwap hnoted]
  constructor
  · rintro ⟨l', r, s, hpaid, hrun, hmessages⟩
    cases hb.paid.symm.trans hpaid
    cases hb.run.symm.trans hrun
    exact hmessages
  · exact fun hmessages => ⟨l, _, _, hb.paid, hb.run, hmessages⟩

/-- The second phase is what is left to do. -/
theorem Ready.exists_midway_of_settle (hr : Ready c sender order coin ask pool sides q)
    (h : Priced c sender order coin ask pool sides q) :
    ∃ m, Midway c m sender coin ask pool sides q ∧ ∀ effects c',
      settle sender [coin] (.deposit order) c = .ok effects c' ↔
        deliver (restDeposit sender order coin ask q.returned)
          (tradedPool coin ask pool sides q) m = .ok effects c' := by
  obtain ⟨l, st, hb⟩ := hr.exists_begun h
  obtain ⟨m, htrade, hm, hwaiting⟩ := hr.exists_trade h hb
  have htry := tryTrade_eq_ok.2 htrade
  refine ⟨{ m with state := Confirmation.taken m.state st.swap.provision },
    ⟨hm.config, hm.registry, hm.positions, hm.locked, hm.moved⟩, fun effects c' => ?_⟩
  rw [hb.settle_iff h.auto, deliver_eq_ok]
  constructor
  · rintro ⟨settlement, hhalf, rfl⟩
    obtain ⟨success, c₁, s, htry', hconfirm, happly⟩ := runHalfSwap_eq_ok.1 hhalf
    cases htry.symm.trans htry'
    cases Confirmation.taken_of_run hconfirm with
    | refunded failure waiting => cases failure
    | completed success waiting complete =>
        cases hwaiting.symm.trans waiting
        obtain ⟨o, hrun, rfl⟩ := (hm.complete_iff h hr hb).1 complete
        exact ⟨o, hrun, rfl, happly⟩
  · rintro ⟨o, hrun, rfl, happly⟩
    have hconfirm := Confirmation.run_eq ⟨st.swap.provision, true⟩ m.state
    simp only [hwaiting, ite_true, (hm.complete_iff h hr hb).2 ⟨o, hrun, rfl⟩] at hconfirm
    exact ⟨_, runHalfSwap_eq_ok.2 ⟨true, m, _, htry, hconfirm, happly⟩, rfl⟩

/-- What a deposit of one coin runs into, if it succeeds, is a first phase. -/
theorem begun_of_settle (h : Priced c sender order coin ask pool sides q) {effects : List Effect}
    (hsettle : settle sender [coin] (.deposit order) c = .ok effects c') :
    ∃ l st, Begun c sender order coin pool sides q l st := by
  obtain ⟨l, r, s, hpaid, hrun, -⟩ := settleCall_eq_ok.1 (settle_eq_ok.1 hsettle)
  obtain ⟨-, -, pool', hpool, hpos, hheld, hbegin⟩ :=
    (DepositOrder.run_singleton_eq_ok rfl h.coin_valid).1 hrun
  cases h.stored.symm.trans hpool
  obtain ⟨st, hst, hfresh, rfl, rfl⟩ := DepositOrder.begin_eq_ok.1 hbegin
  obtain ⟨sides', q', hstarted⟩ := Provision.started_of_start hst
  have hpaired := hstarted.paired
  rw [Provision.otherDenom_eq h.pairs h.two] at hpaired
  cases h.paired.symm.trans hpaired
  cases h.quoted.symm.trans hstarted.quoted
  have hbrings : DepositOrder.Brings (c.nextCall sender [coin]) pool [coin] :=
    (DepositOrder.Brings.singleton_iff rfl h.coin_valid).2 ⟨hpos, hheld, rfl⟩
  exact ⟨l, st, hpaid, ⟨h.stored, hbrings, hstarted, hfresh⟩, hrun⟩

/-- A half-swap that is traded is let through as the depositor's own swap. -/
theorem Begun.allowed {l : Ledger} {st : Provision.Start}
    (hb : Begun c sender order coin pool sides q l st)
    (h : Priced c sender order coin ask pool sides q) {u : Unit}
    (htrade : trade st.swap (c.trading l (c.nextCall sender [coin]).transaction st) = .ok u m) :
    (order.halfSwap ask).Allows c.state coin.half pool sides q := by
  obtain ⟨o, hrun, -⟩ := trade_eq_ok.1 htrade
  obtain ⟨⟨offer, pool', sides', q', hfunds, hallows, -⟩, -⟩ := SwapOrder.run_eq_ok_iff.1 hrun
  rw [hb.swap_eq h] at hfunds hallows
  cases hfunds
  cases h.stored.symm.trans hallows.stored
  cases h.paired.symm.trans hallows.paired
  cases h.quoted.symm.trans hallows.quoted
  exact hallows.congr rfl rfl rfl rfl rfl rfl

/-- A deposit of one coin issues shares only if it is ready. -/
theorem ready_of_mints (h : Priced c sender order coin ask pool sides q) {denom : String}
    (hmints : c.Mints sender [coin] (.deposit order) denom) :
    Ready c sender order coin ask pool sides q := by
  obtain ⟨effects, c', hsettle, amount, recipient, -, hmint⟩ := hmints
  obtain ⟨l, st, hb⟩ := begun_of_settle h hsettle
  obtain ⟨settlement, hhalf, rfl⟩ := (hb.settle_iff h.auto).1 hsettle
  obtain ⟨success, c₁, s, htry, hconfirm, -⟩ := runHalfSwap_eq_ok.1 hhalf
  obtain ⟨henabled, hlock, -⟩ := DepositOrder.run_eq_ok_iff.1 hb.run
  cases Confirmation.taken_of_run hconfirm with
  | refunded failure waiting => cases List.mem_singleton.1 hmint
  | completed success waiting complete =>
      cases success
      exact ⟨Ledger.le_balance_of_transfer hb.paid, henabled,
        fun call hcall => (DepositOrder.checkLock_eq hcall).trans hlock,
        hb.allowed h (tryTrade_eq_ok.1 htry)⟩

end Chain

end MarketMaker
