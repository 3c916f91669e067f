import MarketMaker.Operation.Basic
import MarketMaker.Proofs.Aggregate
import MarketMaker.Proofs.Operation.SingleSided
import MarketMaker.Proofs.Operation.Swap
import MarketMaker.Proofs.Operation.Withdrawal

/-! # What the operations of users do

An operation that succeeds either settles at once or keeps a provision and asks for its swap. What
settles at once leaves the pool valid, and moves to the manager what the pool records. -/

namespace MarketMaker

open Ledger

/-! ## Calls of users -/

/-- A call that another address than the manager makes, with valid coins. -/
structure Call.FromUser (call : Call) : Prop where
  sender_ne : call.sender ≠ managerAddress
  funds_valid : ∀ c ∈ call.funds, c.Valid

theorem Call.FromUser.funds_nonneg {call : Call} (h : call.FromUser) :
    ∀ c ∈ call.funds, 0 ≤ c.amount := fun c hc => (h.funds_valid c hc).2.1

/-- What an operation returns does not go to the manager. -/
def Operation.PaysUser : Operation → Prop
  | .swap order => order.receiver ≠ some managerAddress
  | _ => True

instance (op : Operation) : Decidable op.PaysUser :=
  match op with
  | .swap order => inferInstanceAs (Decidable (order.receiver ≠ some managerAddress))
  | .deposit _ | .withdraw _ => inferInstanceAs (Decidable True)

theorem Call.receiver_ne {call : Call} {address : String} (h : call.sender ≠ address)
    {given : Option String} (hg : given ≠ some address) : call.receiver given ≠ address := by
  cases given with
  | none => exact h
  | some name =>
      by_cases hname : name = ""
      · simpa [Call.receiver, Option.filter, hname] using h
      · have hne : name ≠ address := fun he => hg (he ▸ rfl)
        simpa [Call.receiver, Option.filter, hname] using hne

/-! ## The coins of a deposit -/

/-- The coins that a call brings to a pool. -/
structure DepositOrder.Brings (call : Call) (pool : Pool) (coins : List Coin) : Prop where
  aggregated : ∃ all, Coin.aggregate call.funds = .ok all ∧
    coins = all.filter fun c => 0 < c.amount
  ne_nil : coins ≠ []
  held : ∀ c ∈ coins, c.denom ∈ pool.denoms

namespace DepositOrder

theorem coinsOf_eq_ok {call : Call} {pool : Pool} {coins : List Coin} :
    coinsOf call pool = .ok coins ↔ Brings call pool coins := by
  simp only [coinsOf, Result.bind_eq_ok, Result.guarded_eq_ok]
  constructor
  · rintro ⟨all, hall, hne, hfind⟩
    split at hfind
    · cases hfind
    · rename_i hnone
      cases hfind
      refine ⟨⟨all, hall, rfl⟩, hne, ?_⟩
      intro c hc
      have hheld := List.find?_eq_none.1 hnone c hc
      simpa [Pool.holds] using hheld
  · rintro ⟨⟨all, hall, rfl⟩, hne, hheld⟩
    have hnone : ((all.filter fun c => 0 < c.amount).find? fun c => !pool.holds c.denom) = none :=
      List.find?_eq_none.2 fun c hc => by simpa [Pool.holds] using hheld c hc
    exact ⟨all, hall, hne, by rw [hnone]⟩

namespace Brings

variable {call : Call} {pool : Pool} {coins : List Coin}

theorem amount_pos (h : Brings call pool coins) : ∀ c ∈ coins, 0 < c.amount := by
  obtain ⟨all, -, rfl⟩ := h.aggregated
  intro c hc
  simpa using (List.mem_filter.1 hc).2

theorem nodup (h : Brings call pool coins) : (coins.map Coin.denom).Nodup := by
  obtain ⟨all, hall, rfl⟩ := h.aggregated
  exact (Coin.ascending_aggregate hall).nodup.sublist (List.filter_sublist.map _)

/-- Only the funds and the pool have a say in what is brought. -/
theorem unique {call' : Call} {coins' : List Coin} (h : Brings call pool coins)
    (h' : Brings call' pool coins') (hfunds : call.funds = call'.funds) : coins = coins' := by
  have hcoins := coinsOf_eq_ok.2 h
  rw [coinsOf, hfunds, ← coinsOf, coinsOf_eq_ok.2 h'] at hcoins
  exact (Except.ok.inj hcoins).symm

/-- The coins are worth the funds, denom by denom. -/
theorem total_eq (h : Brings call pool coins) (hfunds : ∀ c ∈ call.funds, 0 ≤ c.amount)
    (denom : String) : Coin.total denom coins = Coin.total denom call.funds := by
  obtain ⟨all, hall, rfl⟩ := h.aggregated
  rw [Coin.total_filter_pos denom (Coin.nonneg_aggregate hall hfunds),
    Coin.total_aggregate hall]

/-- One coin is brought as it is, if it is some of what the pool holds. -/
theorem singleton_iff {coin : Coin} (hfunds : call.funds = [coin]) (hcoin : coin.Valid) :
    Brings call pool coins ↔ 0 < coin.amount ∧ coin.denom ∈ pool.denoms ∧ coins = [coin] := by
  have hall := Coin.aggregate_singleton hcoin.2.2
  rw [← hfunds] at hall
  constructor
  · rintro ⟨⟨all, hall', rfl⟩, hne, hheld⟩
    cases hall.symm.trans hall'
    rw [hfunds] at hne hheld ⊢
    by_cases hpos : 0 < coin.amount
    · simp only [hpos, decide_true, List.filter_cons_of_pos, List.filter_nil, List.mem_cons,
        List.not_mem_nil, or_false, forall_eq] at hheld ⊢
      exact ⟨trivial, hheld, trivial⟩
    · simp [hpos] at hne
  · rintro ⟨hpos, hheld, rfl⟩
    refine ⟨⟨_, hall, ?_⟩, List.cons_ne_nil _ _, ?_⟩
    · simp [hfunds, hpos]
    · simpa using hheld

/-- Two coins of different denoms are brought, if they are some of what the pool holds. -/
theorem exists_pair {x y : Coin} (hfunds : call.funds = [x, y]) (hx : x.amount ≤ maxAmount)
    (hy : y.amount ≤ maxAmount) (hxpos : 0 < x.amount) (hypos : 0 < y.amount)
    (hne : x.denom ≠ y.denom) (hxheld : x.denom ∈ pool.denoms) (hyheld : y.denom ∈ pool.denoms) :
    ∃ coins, Brings call pool coins ∧ coins.length = 2 := by
  obtain ⟨coins, hall, heq⟩ := Coin.aggregate_pair hx hy hne
  rw [← hfunds] at hall
  refine ⟨coins, ⟨⟨coins, hall, ?_⟩, ?_, ?_⟩, ?_⟩
  all_goals rcases heq with rfl | rfl <;> simp [hxpos, hypos, hxheld, hyheld]

end Brings

/-! ## Orders of one coin and of several -/

variable {order : DepositOrder} {s s' : State} {call : Call} {r : Response}

/-- Whether shares can be locked depends on who calls. -/
theorem checkLock_eq {call' : Call} (h : call.sender = call'.sender) :
    order.checkLock call = order.checkLock call' := by
  cases call
  cases call'
  cases h
  rfl

/-- How a deposit goes on with the coins that it brings: one coin begins a deposit of one asset, and
several are deposited at once. -/
inductive Proceeds (order : DepositOrder) (s : State) (call : Call) (pool : Pool) :
    List Coin → Response → State → Prop
  | one {coin : Coin} {r : Response} {s' : State}
      (begins : order.begin call pool coin s = .ok r s') : Proceeds order s call pool [coin] r s'
  | several {coins : List Coin} {o : Outcome} {s' : State} (count : coins.length ≠ 1)
      (run : (order.deposit call coins).run pool s = .ok o s') :
      Proceeds order s call pool coins o.settlement.toResponse s'

theorem run_eq_ok_iff : order.run call s = .ok r s' ↔ s.config.depositsEnabled = true ∧
    order.checkLock call = .ok () ∧ ∃ pool coins, s.registry.get? order.pool = some pool ∧
      Brings call pool coins ∧ order.Proceeds s call pool coins r s' := by
  simp only [run, Action.get_bind, Action.lift_bind_eq_ok, checkEnabled_eq_ok, State.pool,
    Registry.get_eq_ok_iff, coinsOf_eq_ok]
  constructor
  · rintro ⟨_, henabled, pool, hpool, coins, hbrings, _, hlock, hrun⟩
    refine ⟨henabled, hlock, pool, coins, hpool, hbrings, ?_⟩
    split at hrun
    · exact .one hrun
    · rename_i hseveral
      obtain ⟨o, ho, rfl⟩ := Action.bind_pure_eq_ok.1 hrun
      refine .several (fun hone => ?_) ho
      obtain ⟨coin, rfl⟩ := List.length_eq_one_iff.1 hone
      exact hseveral coin rfl
  · rintro ⟨henabled, hlock, pool, coins, hpool, hbrings, hproceeds⟩
    refine ⟨(), henabled, pool, hpool, coins, hbrings, (), hlock, ?_⟩
    cases hproceeds with
    | one begins => exact begins
    | several count run =>
        split
        · exact absurd rfl count
        · exact Action.bind_pure_eq_ok.2 ⟨_, run, rfl⟩

/-- A deposit of one coin begins, where deposits are enabled and its shares can be locked. -/
theorem run_singleton_eq_ok {coin : Coin} (hfunds : call.funds = [coin]) (hcoin : coin.Valid) :
    order.run call s = .ok r s' ↔ s.config.depositsEnabled = true ∧
      order.checkLock call = .ok () ∧ ∃ pool, s.registry.get? order.pool = some pool ∧
        0 < coin.amount ∧ coin.denom ∈ pool.denoms ∧ order.begin call pool coin s = .ok r s' := by
  simp only [run_eq_ok_iff, Brings.singleton_iff hfunds hcoin]
  constructor
  · rintro ⟨henabled, hlock, pool, _, hpool, ⟨hpos, hheld, rfl⟩, hproceeds⟩
    cases hproceeds with
    | one begins => exact ⟨henabled, hlock, pool, hpool, hpos, hheld, begins⟩
    | several count => exact absurd rfl count
  · rintro ⟨henabled, hlock, pool, hpool, hpos, hheld, hbegin⟩
    exact ⟨henabled, hlock, pool, _, hpool, ⟨hpos, hheld, rfl⟩, .one hbegin⟩

/-- A deposit of several coins is made at once. -/
theorem run_several_eq_ok {pool : Pool} {coins : List Coin}
    (hpool : s.registry.get? order.pool = some pool) (hbrings : Brings call pool coins)
    (hseveral : coins.length ≠ 1) : order.run call s = .ok r s' ↔
      s.config.depositsEnabled = true ∧ order.checkLock call = .ok () ∧
        ∃ o, (order.deposit call coins).run pool s = .ok o s' ∧ r = o.settlement.toResponse := by
  rw [run_eq_ok_iff]
  constructor
  · rintro ⟨henabled, hlock, pool', coins', hpool', hbrings', hproceeds⟩
    cases hpool.symm.trans hpool'
    obtain rfl := hbrings.unique hbrings' rfl
    cases hproceeds with
    | one begins => exact absurd rfl hseveral
    | several count run => exact ⟨henabled, hlock, _, run, rfl⟩
  · rintro ⟨henabled, hlock, o, hrun, rfl⟩
    exact ⟨henabled, hlock, pool, coins, hpool, hbrings, .several hseveral hrun⟩

/-- A first phase that went through has changed nothing but that it keeps its provision. -/
theorem begin_eq_ok {pool : Pool} {coin : Coin} : order.begin call pool coin s = .ok r s' ↔
    ∃ st, Provision.start s call pool coin (call.receiver order.receiver) order.request = .ok st ∧
      s.provisions.get? call.transaction = none ∧
        r = ⟨[.halfSwap st.swap], Provision.startAttributes call pool st.provision⟩ ∧
          s' = { s with provisions := s.provisions.put call.transaction st.provision } := by
  simp only [DepositOrder.begin, Action.get_bind, Action.lift_bind_eq_ok, Action.bind_pure_eq_ok,
    State.keepProvision_eq_ok]
  constructor
  · rintro ⟨st, hst, _, ⟨hfresh, rfl⟩, rfl⟩
    exact ⟨st, hst, hfresh, rfl, rfl⟩
  · rintro ⟨st, hst, hfresh, rfl, rfl⟩
    exact ⟨st, hst, (), ⟨hfresh, rfl⟩, rfl⟩

theorem keepsOnError_begin (order : DepositOrder) (call : Call) (pool : Pool) (coin : Coin) :
    (order.begin call pool coin).KeepsOnError :=
  .get_bind fun _ => .lift_bind fun _ => (State.keepsOnError_keepProvision _ _).bind_pure _

theorem keepsOnError_run (order : DepositOrder) (call : Call) : (order.run call).KeepsOnError := by
  refine .get_bind fun s => .lift_bind fun _ => .lift_bind fun pool => .lift_bind fun coins => ?_
  refine .lift_bind fun _ => ?_
  split
  · exact keepsOnError_begin _ _ _ _
  · exact (Deposit.keepsOnError_run _ _).bind_pure _

end DepositOrder

/-! ## Operations that succeed -/

/-- An operation that is settled at once, with what its outcome depends on. -/
inductive Operation.Settles (s : State) (call : Call) : Operation → Pool → Outcome → Prop
  | deposited {order : DepositOrder} {pool : Pool} {coins : List Coin} {o : Outcome}
      (stored : s.registry.get? order.pool = some pool)
      (brings : DepositOrder.Brings call pool coins)
      (run : (order.deposit call coins).run pool s = .ok o (s.savePool o.pool)) :
      Settles s call (.deposit order) pool o
  | withdrawn {identifier : String} {pool : Pool} {amount : Int} {o : Outcome}
      (paid : Withdrawal.Paid identifier s call pool amount o) :
      Settles s call (.withdraw identifier) pool o
  | swapped {order : SwapOrder} {offer : Coin} {pool : Pool} {sides : AssetPair} {q : SwapQuote}
      {o : Outcome} (fills : order.Fills s call offer pool sides q o) :
      Settles s call (.swap order) pool o

/-- A deposit of one asset that begins, with the price that it is made at. -/
structure DepositOrder.Begins (order : DepositOrder) (s : State) (call : Call) (pool : Pool)
    (coin : Coin) (sides : AssetPair) (q : SwapQuote) (st : Provision.Start) : Prop where
  stored : s.registry.get? order.pool = some pool
  brings : DepositOrder.Brings call pool [coin]
  started : Provision.Started s call pool coin (call.receiver order.receiver) order.request sides q
    st
  fresh : s.provisions.get? call.transaction = none

/-- An operation that succeeds is settled at once, or it keeps a provision and asks for its swap. -/
inductive Operation.Ran (s : State) (call : Call) : Operation → Response → State → Prop
  | settled {op : Operation} {pool : Pool} {o : Outcome} (settles : op.Settles s call pool o) :
      Ran s call op o.settlement.toResponse (s.savePool o.pool)
  | begun {order : DepositOrder} {pool : Pool} {coin : Coin} {sides : AssetPair} {q : SwapQuote}
      {st : Provision.Start} (begins : order.Begins s call pool coin sides q st) :
      Ran s call (.deposit order)
        ⟨[.halfSwap st.swap], Provision.startAttributes call pool st.provision⟩
        { s with provisions := s.provisions.put call.transaction st.provision }

theorem DepositOrder.exists_begins {order : DepositOrder} {s s' : State} {call : Call}
    {r : Response} {pool : Pool} {coin : Coin} (hstored : s.registry.get? order.pool = some pool)
    (hbrings : Brings call pool [coin]) (h : order.begin call pool coin s = .ok r s') :
    ∃ sides q st, order.Begins s call pool coin sides q st ∧
      r = ⟨[.halfSwap st.swap], Provision.startAttributes call pool st.provision⟩ ∧
        s' = { s with provisions := s.provisions.put call.transaction st.provision } := by
  obtain ⟨st, hst, hfresh, rfl, rfl⟩ := begin_eq_ok.1 h
  obtain ⟨sides, q, hstarted⟩ := Provision.started_of_start hst
  exact ⟨sides, q, st, ⟨hstored, hbrings, hstarted, hfresh⟩, rfl, rfl⟩

theorem Operation.ran_of_run {op : Operation} {s s' : State} {call : Call} {r : Response}
    (h : op.run call s = .ok r s') : op.Ran s call r s' := by
  cases op with
  | deposit order =>
      obtain ⟨-, -, pool, coins, hstored, hbrings, hproceeds⟩ := DepositOrder.run_eq_ok_iff.1 h
      cases hproceeds with
      | one begins =>
          obtain ⟨sides, q, st, hbegins, rfl, rfl⟩ :=
            DepositOrder.exists_begins hstored hbrings begins
          exact .begun hbegins
      | several count run =>
          obtain rfl := Deposit.state_of_run run
          exact .settled (.deposited hstored hbrings run)
  | withdraw identifier =>
      obtain ⟨o, ho, rfl⟩ := Action.bind_pure_eq_ok.1 h
      obtain ⟨pool, amount, hpaid⟩ := Withdrawal.paid_of_run ho
      obtain rfl := Withdrawal.state_of_run ho
      exact .settled (.withdrawn hpaid)
  | swap order =>
      obtain ⟨o, ho, rfl⟩ := Action.bind_pure_eq_ok.1 h
      obtain ⟨offer, pool, sides, q, hfills⟩ := SwapOrder.fills_of_run ho
      obtain rfl := SwapOrder.state_of_run ho
      exact .settled (.swapped hfills)

theorem Operation.keepsOnError_run (op : Operation) (call : Call) :
    (op.run call).KeepsOnError := by
  cases op with
  | deposit order => exact order.keepsOnError_run call
  | withdraw identifier => exact (Withdrawal.keepsOnError_run identifier call).bind_pure _
  | swap order => exact (order.keepsOnError_run call).bind_pure _

namespace DepositOrder.Begins

variable {order : DepositOrder} {s : State} {call : Call} {pool : Pool} {coin : Coin}
  {sides : AssetPair} {q : SwapQuote} {st : Provision.Start}

theorem coin_pos (h : order.Begins s call pool coin sides q st) : 0 < coin.amount :=
  h.brings.amount_pos coin (List.mem_singleton.2 rfl)

theorem coherent (h : order.Begins s call pool coin sides q st) : st.provision.Coherent :=
  h.started.coherent (Int.le_of_lt h.coin_pos)

theorem offer_nonneg (h : order.Begins s call pool coin sides q st) :
    0 ≤ st.swap.offer.amount := by
  have hpos := h.coin_pos
  rw [h.started.swap_eq]
  dsimp only
  omega

theorem sound (h : order.Begins s call pool coin sides q st) (hcall : call.FromUser) :
    st.provision.Sound := h.started.sound hcall.sender_ne (Int.le_of_lt h.coin_pos)

theorem matches_swap (h : order.Begins s call pool coin sides q st) (hsound : s.registry.Sound) :
    st.swap.Matches st.provision := h.started.matches_swap (hsound _ _ h.stored).1

/-- The provision holds all the funds of the call. -/
theorem total_wholeOffer (h : order.Begins s call pool coin sides q st) (hcall : call.FromUser)
    (denom : String) :
    Coin.total denom [st.provision.wholeOffer] = Coin.total denom call.funds := by
  rw [h.started.wholeOffer_eq, h.brings.total_eq hcall.funds_nonneg]

end DepositOrder.Begins

/-! ## Outcomes that refill their pool -/

/-- An outcome that keeps the pool's terms and leaves valid amounts. -/
def Outcome.Refills (o : Outcome) (pool : Pool) : Prop :=
  ∃ assets, pool.Refills assets ∧ o.pool = pool.withAssets assets

namespace Outcome.Refills

variable {o : Outcome} {pool : Pool}

theorem valid (h : o.Refills pool) (hpool : pool.Valid) : o.pool.Valid := by
  obtain ⟨assets, hr, heq⟩ := h
  exact heq ▸ hpool.withAssets hr

theorem identifier (h : o.Refills pool) : o.pool.identifier = pool.identifier := by
  obtain ⟨assets, -, heq⟩ := h
  rw [heq]
  rfl

theorem lpDenom (h : o.Refills pool) : o.pool.lpDenom = pool.lpDenom := by
  obtain ⟨assets, -, heq⟩ := h
  rw [heq]
  rfl

theorem denoms (h : o.Refills pool) : o.pool.denoms = pool.denoms := by
  obtain ⟨assets, hr, heq⟩ := h
  rw [heq]
  exact hr.denoms

/-- To keep the outcome's pool is to change amounts of its pool at most. -/
theorem save {r : Registry} (h : o.Refills pool) (hr : r.Sound)
    (hstored : r.get? pool.identifier = some pool) : r.Refilled (r.save o.pool) := by
  obtain ⟨assets, hrefills, heq⟩ := h
  rw [heq]
  exact .save hr hstored hrefills

/-- Keeping the outcome's pool changes the reserves by what its record gains. -/
theorem reserves_save {r : Registry} (h : o.Refills pool)
    (hstored : r.get? pool.identifier = some pool) (denom : String) :
    (r.save o.pool).reserves denom =
      r.reserves denom + o.pool.reserve denom - pool.reserve denom :=
  Registry.reserves_save (h.identifier ▸ hstored) denom

end Outcome.Refills

theorem Deposit.Accepted.refills_pool {d : Deposit} {s : State} {pool : Pool}
    {deposits balances : List Int} {share : Int} {issued : List Effect} {o : Outcome}
    (h : d.Accepted s pool deposits balances share issued o) (hpool : pool.Valid)
    (hnonneg : ∀ c ∈ d.coins, 0 ≤ c.amount) : o.Refills pool :=
  ⟨_, h.refills hpool (amountOf_nonneg hnonneg), h.pool_eq⟩

theorem Withdrawal.Paid.refills_pool {identifier : String} {s : State} {call : Call} {pool : Pool}
    {amount : Int} {o : Outcome} (h : Withdrawal.Paid identifier s call pool amount o)
    (hpool : pool.Valid) (hfunds : ∀ c ∈ call.funds, 0 ≤ c.amount) : o.Refills pool :=
  ⟨_, h.refills hpool (Int.le_of_lt (h.amount_pos hfunds)), h.pool_eq⟩

theorem SwapOrder.Fills.refills_pool {order : SwapOrder} {s : State} {call : Call} {offer : Coin}
    {pool : Pool} {sides : AssetPair} {q : SwapQuote} {o : Outcome}
    (h : order.Fills s call offer pool sides q o) (hpool : pool.Valid)
    (hfunds : ∀ c ∈ call.funds, 0 ≤ c.amount) : o.Refills pool := by
  have hoffer : 0 ≤ offer.amount := hfunds offer (h.funds ▸ List.mem_singleton.2 rfl)
  exact ⟨_, h.refills hpool hoffer, h.pool_eq⟩

namespace Operation.Settles

variable {op : Operation} {s : State} {call : Call} {pool : Pool} {o : Outcome}

theorem stored (h : op.Settles s call pool o) (hsound : s.registry.Sound) :
    s.registry.get? pool.identifier = some pool := by
  cases h with
  | deposited stored brings run => exact (hsound _ _ stored).1 ▸ stored
  | withdrawn paid => exact (hsound _ _ paid.stored).1 ▸ paid.stored
  | swapped fills => exact (hsound _ _ fills.stored).1 ▸ fills.stored

theorem valid (h : op.Settles s call pool o) (hsound : s.registry.Sound) : pool.Valid :=
  (hsound _ _ (h.stored hsound)).2

theorem refills_pool (h : op.Settles s call pool o) (hsound : s.registry.Sound)
    (hfunds : ∀ c ∈ call.funds, 0 ≤ c.amount) : o.Refills pool := by
  have hvalid := h.valid hsound
  cases h with
  | deposited stored brings run =>
      obtain ⟨_, _, _, _, haccepted⟩ := Deposit.accepted_of_run run
      exact haccepted.refills_pool hvalid fun c hc => Int.le_of_lt (brings.amount_pos c hc)
  | withdrawn paid => exact paid.refills_pool hvalid hfunds
  | swapped fills => exact fills.refills_pool hvalid hfunds

end Operation.Settles

/-- A completed deposit changes amounts of its pool at most. -/
theorem Provision.Completed.refilled {p : Provision} {s : State} {pool : Pool}
    {o : Outcome} (h : p.Completed s pool o) (hp : ∀ c ∈ p.completion.coins, 0 ≤ c.amount)
    (hsound : s.registry.Sound) : s.registry.Refilled (s.registry.save o.pool) := by
  obtain ⟨_, _, _, _, haccepted⟩ := h.deposited
  obtain ⟨hid, hvalid⟩ := hsound _ _ h.stored
  exact (haccepted.refills_pool hvalid hp).save hsound (hid ▸ h.stored)

/-! ## Outcomes in balance -/

/-- An outcome that refills the pool, and records of every denom but the shares' what the manager
gets: the funds, and what it gains by the effects. -/
structure Outcome.Balanced (o : Outcome) (pool : Pool) (funds : List Coin) : Prop where
  refills : o.Refills pool
  reserve : ∀ denom, pool.lpDenom ≠ denom → o.pool.reserve denom =
    pool.reserve denom + Coin.total denom funds +
      Effect.gains o.settlement.effects managerAddress denom

theorem Deposit.Accepted.balanced {d : Deposit} {s : State} {pool : Pool}
    {deposits balances : List Int} {share : Int} {issued : List Effect} {o : Outcome}
    (h : d.Accepted s pool deposits balances share issued o) (hpool : pool.Valid)
    (hn : (d.coins.map Coin.denom).Nodup) (hheld : ∀ c ∈ d.coins, c.denom ∈ pool.denoms)
    (hnonneg : ∀ c ∈ d.coins, 0 ≤ c.amount) : o.Balanced pool d.coins where
  refills := h.refills_pool hpool hnonneg
  reserve := by
    intro denom hne
    rw [h.reserve_eq hpool.denoms_nodup hn hheld, h.gains_eq_zero _ hne, Int.add_zero]

theorem Withdrawal.Paid.balanced {identifier : String} {s : State} {call : Call} {pool : Pool}
    {amount : Int} {o : Outcome} (h : Withdrawal.Paid identifier s call pool amount o)
    (hpool : pool.Valid) (hcall : call.FromUser) : o.Balanced pool call.funds where
  refills := h.refills_pool hpool hcall.funds_nonneg
  reserve := by
    intro denom hne
    have hamount := Int.le_of_lt (h.amount_pos hcall.funds_nonneg)
    rw [h.reserve_eq hpool hamount, h.gains_eq, h.funds, gainOf_of_ne hcall.sender_ne, gainOf_self,
      single_self, Coin.total_singleton, if_neg hne]
    omega

theorem SwapOrder.Fills.balanced_of_user {order : SwapOrder} {s : State} {call : Call}
    {offer : Coin} {pool : Pool} {sides : AssetPair} {q : SwapQuote} {o : Outcome}
    (h : order.Fills s call offer pool sides q o) (hpool : pool.Valid) (hcall : call.FromUser)
    (hcollector : s.config.feeCollector ≠ managerAddress)
    (hreceiver : order.receiver ≠ some managerAddress) : o.Balanced pool call.funds where
  refills := h.refills_pool hpool hcall.funds_nonneg
  reserve := by
    intro denom _
    have hbalance := h.balanced hcollector denom
    rwa [single_of_ne (Call.receiver_ne hcall.sender_ne hreceiver), Int.add_zero] at hbalance

/-- An operation of a user is settled in balance. -/
theorem Operation.Settles.balanced {op : Operation} {s : State} {call : Call} {pool : Pool}
    {o : Outcome} (h : op.Settles s call pool o) (hsound : s.registry.Sound)
    (hcall : call.FromUser) (hcollector : s.config.feeCollector ≠ managerAddress)
    (hpays : op.PaysUser) : o.Balanced pool call.funds := by
  have hvalid := h.valid hsound
  cases h with
  | deposited stored brings run =>
      obtain ⟨_, _, _, _, haccepted⟩ := Deposit.accepted_of_run run
      have hbalanced := haccepted.balanced hvalid brings.nodup brings.held
        fun c hc => Int.le_of_lt (brings.amount_pos c hc)
      refine ⟨hbalanced.refills, ?_⟩
      intro denom hne
      rw [hbalanced.reserve denom hne]
      exact congrArg (_ + · + _) (brings.total_eq hcall.funds_nonneg denom)
  | withdrawn paid => exact paid.balanced hvalid hcall
  | swapped fills => exact fills.balanced_of_user hvalid hcall hcollector hpays

end MarketMaker
