import MarketMaker.Operation.SingleSided
import MarketMaker.Proofs.Operation.Deposit
import MarketMaker.Proofs.Quote
import MarketMaker.Proofs.Reading

/-! # What the two phases of a deposit of one asset do -/

namespace MarketMaker

/-- A waiting swap asks for what its provision expects. -/
structure HalfSwap.Matches (h : HalfSwap) (p : Provision) : Prop where
  pool : h.pool = p.request.pool
  offer : h.offer = ⟨p.offerDenom, p.offerHalf⟩
  ask : h.askDenom = p.askDenom

namespace Provision

/-- What every provision satisfies: two denoms, and no amount below zero. -/
structure Coherent (p : Provision) : Prop where
  denoms_ne : p.offerDenom ≠ p.askDenom
  offerHalf : 0 ≤ p.offerHalf
  keptOffer : 0 ≤ p.keptOffer
  expectedReturn : 0 ≤ p.expectedReturn

/-- What every provision satisfies that was made for a user. -/
structure Sound (p : Provision) : Prop extends p.Coherent where
  sender_ne : p.sender ≠ managerAddress

/-! ## The first phase -/

/-- A first phase that went through, with the price that it was made at. -/
structure Started (s : State) (call : Call) (pool : Pool) (deposit : Coin) (receiver : String)
    (request : ProvisionRequest) (sides : AssetPair) (q : SwapQuote) (st : Start) : Prop where
  two : pool.assets.length = 2
  reserves_ne : 0 ∉ pool.balances
  paired : pool.pair deposit.denom (otherDenom pool deposit.denom) = .ok sides
  quoted : (pool.market sides).quote s.config.solver (deposit.amount / 2) pool.curve = .ok q
  provision_eq : st.provision =
    { sender := call.sender
      receiver
      offerDenom := deposit.denom
      askDenom := otherDenom pool deposit.denom
      expectedOfferBalance := s.held deposit.denom
      expectedAskBalance :=
        Checked.subFloor (s.held (otherDenom pool deposit.denom)) q.charges.outgoing
      offerHalf := deposit.amount / 2
      keptOffer := deposit.amount - deposit.amount / 2
      expectedReturn := q.returned
      request }
  swap_eq : st.swap = ⟨call.transaction, pool.identifier, ⟨deposit.denom, deposit.amount / 2⟩,
    otherDenom pool deposit.denom, request.maxSpread⟩

theorem checkPool_eq_ok {pool : Pool} {u : Unit} (h : checkPool pool = .ok u) :
    pool.assets.length = 2 ∧ 0 ∉ pool.balances := by
  simp only [checkPool, Result.guarded_eq_ok, Decidable.not_not] at h
  obtain ⟨hlength, hzero, -⟩ := h
  exact ⟨hlength, by simpa using hzero⟩

theorem started_of_start {s : State} {call : Call} {pool : Pool} {deposit : Coin}
    {receiver : String} {request : ProvisionRequest} {st : Start}
    (h : start s call pool deposit receiver request = .ok st) :
    ∃ sides q, Started s call pool deposit receiver request sides q st := by
  simp only [start, Pool.quote, Result.bind_eq_ok, Result.guarded_eq_ok,
    SwapQuote.reported_eq_ok_iff, Except.ok.injEq] at h
  obtain ⟨_, hcheck, q, ⟨sides, hsides, hq⟩, _, ⟨-, hreport⟩, -, rfl⟩ := h
  obtain ⟨htwo, hne⟩ := checkPool_eq_ok hcheck
  subst hreport
  exact ⟨sides, _, htwo, hne, hsides, hq, rfl, rfl⟩

/-- In a pool of two assets, the other denom is the other side. -/
theorem otherDenom_eq {pool : Pool} {offer ask : String} {sides : AssetPair}
    (h : pool.Pairs offer ask sides) (htwo : pool.assets.length = 2) :
    otherDenom pool offer = ask := by
  have hne := h.ne
  rcases h.assets_of_two htwo with hassets | hassets
  · simp [otherDenom, Pool.denoms, hassets, hne.symm]
  · simp [otherDenom, Pool.denoms, hassets, hne.symm]

/-- A first phase goes through where there is some of both assets, the price can be reported, and
the manager holds more of the asked denom than the fees that go out. -/
theorem exists_start {s : State} {pool : Pool} {deposit : Coin} {sides : AssetPair} {q : SwapQuote}
    (call : Call) (receiver : String) (request : ProvisionRequest)
    (htwo : pool.assets.length = 2) (hreserves : 0 ∉ pool.balances)
    (hpaired : pool.pair deposit.denom (otherDenom pool deposit.denom) = .ok sides)
    (hquoted : (pool.market sides).quote s.config.solver (deposit.amount / 2) pool.curve = .ok q)
    (hfits : q.Fits) (hheld : q.charges.outgoing < s.held (otherDenom pool deposit.denom)) :
    ∃ st, start s call pool deposit receiver request = .ok st ∧
      Started s call pool deposit receiver request sides q st := by
  have hcheck : checkPool pool = .ok () := by
    simp [checkPool, htwo, hreserves]
  have hexpected : Checked.subFloor (s.held (otherDenom pool deposit.denom)) q.charges.outgoing ≠
      0 := by
    rw [Checked.subFloor]
    omega
  obtain ⟨st, hst⟩ : ∃ st, start s call pool deposit receiver request = .ok st := by
    simp only [start, Pool.quote, Result.bind_eq_ok, Result.guarded_eq_ok,
      SwapQuote.reported_eq_ok_iff]
    exact ⟨_, (), hcheck, q, ⟨sides, hpaired, hquoted⟩, q, ⟨hfits, rfl⟩, hexpected, rfl⟩
  obtain ⟨sides', q', hstarted⟩ := started_of_start hst
  cases hpaired.symm.trans hstarted.paired
  cases hquoted.symm.trans hstarted.quoted
  exact ⟨st, hst, hstarted⟩

namespace Started

variable {s : State} {call : Call} {pool : Pool} {deposit : Coin} {receiver : String}
  {request : ProvisionRequest} {sides : AssetPair} {q : SwapQuote} {st : Start}

theorem pairs (h : Started s call pool deposit receiver request sides q st) :
    pool.Pairs deposit.denom (otherDenom pool deposit.denom) sides := Pool.pairs_of_pair h.paired

theorem coherent (h : Started s call pool deposit receiver request sides q st)
    (hdeposit : 0 ≤ deposit.amount) : st.provision.Coherent := by
  have hreturned := (Market.sound_of_quote h.quoted).returned
  rw [h.provision_eq]
  refine ⟨h.pairs.ne, ?_, ?_, hreturned⟩
  · dsimp only
    omega
  · dsimp only
    omega

theorem sound (h : Started s call pool deposit receiver request sides q st)
    (hsender : call.sender ≠ managerAddress) (hdeposit : 0 ≤ deposit.amount) :
    st.provision.Sound := by
  refine ⟨h.coherent hdeposit, ?_⟩
  rw [h.provision_eq]
  exact hsender

theorem matches_swap (h : Started s call pool deposit receiver request sides q st)
    (hpool : pool.identifier = request.pool) : st.swap.Matches st.provision := by
  rw [h.swap_eq, h.provision_eq]
  exact ⟨hpool, rfl, rfl⟩

/-- The two halves make up the deposit. -/
theorem wholeOffer_eq (h : Started s call pool deposit receiver request sides q st) :
    st.provision.wholeOffer = deposit := by
  rw [h.provision_eq, wholeOffer]
  dsimp only
  rw [Int.add_comm, Int.sub_add_cancel]

end Started

/-! ## The second phase -/

theorem completion_nodup {p : Provision} (h : p.Coherent) :
    (p.completion.coins.map Coin.denom).Nodup := by
  simp [completion, h.denoms_ne]

theorem completion_nonneg {p : Provision} (h : p.Coherent) :
    ∀ c ∈ p.completion.coins, 0 ≤ c.amount := by
  intro c hc
  simp only [completion, List.mem_cons, List.not_mem_nil, or_false] at hc
  rcases hc with rfl | rfl
  · exact h.keptOffer
  · exact h.expectedReturn

theorem total_completion (p : Provision) (denom : String) :
    Coin.total denom p.completion.coins =
      Coin.total denom [⟨p.offerDenom, p.keptOffer⟩] +
        Coin.total denom [⟨p.askDenom, p.expectedReturn⟩] := by
  simp only [completion, Coin.total_cons, Coin.total_nil, Int.add_zero]

theorem total_wholeOffer (p : Provision) (denom : String) :
    Coin.total denom [p.wholeOffer] =
      Coin.total denom [⟨p.offerDenom, p.offerHalf⟩] +
        Coin.total denom [⟨p.offerDenom, p.keptOffer⟩] := by
  simp only [Coin.total_singleton, wholeOffer]
  split <;> omega

theorem Coherent.wholeOffer_nonneg {p : Provision} (hp : p.Coherent) (denom : String) :
    0 ≤ Coin.total denom [p.wholeOffer] := by
  apply Coin.total_nonneg
  intro x hx
  rw [List.mem_singleton.1 hx]
  exact Int.add_nonneg hp.offerHalf hp.keptOffer

/-- What a completed deposit depends on. -/
structure Completed (p : Provision) (s : State) (pool : Pool) (o : Outcome) : Prop where
  stored : s.registry.get? p.request.pool = some pool
  offer_near :
    Checked.absDiff (s.held p.offerDenom) p.expectedOfferBalance ≤ s.config.driftTolerance
  ask_near : Checked.absDiff (s.held p.askDenom) p.expectedAskBalance ≤ s.config.driftTolerance
  deposited : ∃ deposits balances share issued,
    p.completion.Accepted s pool deposits balances share issued o

theorem checkBalance_eq_ok {expected actual tolerance : Int} {u : Unit} :
    checkBalance expected actual tolerance = .ok u ↔
      Checked.absDiff actual expected ≤ tolerance := by
  simp only [checkBalance, Result.guarded_eq_ok, Int.not_lt, and_true]

theorem complete_eq_ok {p : Provision} {s s' : State} {id : String} {o : Outcome} :
    p.complete id s = .ok o s' ↔
      Checked.absDiff (s.held p.offerDenom) p.expectedOfferBalance ≤ s.config.driftTolerance ∧
        Checked.absDiff (s.held p.askDenom) p.expectedAskBalance ≤ s.config.driftTolerance ∧
          ∃ pool o', s.registry.get? p.request.pool = some pool ∧
            p.completion.run pool s = .ok o' s' ∧
              o = { o' with
                settlement.attributes :=
                  o'.settlement.attributes ++ [("provision_id", id)] } := by
  simp only [complete, Action.get_bind, Action.lift_bind_eq_ok, checkBalance_eq_ok, State.pool,
    Registry.get_eq_ok_iff, Action.bind_pure_eq_ok]
  constructor
  · rintro ⟨_, hoffer, _, hask, pool, hpool, o', hrun, rfl⟩
    exact ⟨hoffer, hask, pool, o', hpool, hrun, rfl⟩
  · rintro ⟨hoffer, hask, pool, o', hpool, hrun, rfl⟩
    exact ⟨(), hoffer, (), hask, pool, hpool, o', hrun, rfl⟩

/-- Where the balances are as expected, the second phase is its deposit. -/
theorem complete_as_expected {p : Provision} {s s' : State} (id : String) {pool : Pool}
    {o : Outcome}
    (hoffer : s.held p.offerDenom = p.expectedOfferBalance)
    (hask : s.held p.askDenom = p.expectedAskBalance) (htolerance : 0 ≤ s.config.driftTolerance)
    (hpool : s.registry.get? p.request.pool = some pool) :
    p.complete id s = .ok o s' ↔ ∃ o', p.completion.run pool s = .ok o' s' ∧
      o = { o' with
        settlement.attributes := o'.settlement.attributes ++ [("provision_id", id)] } := by
  rw [complete_eq_ok]
  constructor
  · rintro ⟨-, -, pool', o', hpool', hrun, rfl⟩
    cases hpool.symm.trans hpool'
    exact ⟨o', hrun, rfl⟩
  · rintro ⟨o', hrun, rfl⟩
    rw [hoffer, hask, Checked.absDiff, Checked.absDiff, Int.sub_self, Int.sub_self]
    exact ⟨htolerance, htolerance, pool, o', hpool, hrun, rfl⟩

theorem completed_of_complete {p : Provision} {s s' : State} {id : String} {o : Outcome}
    (h : p.complete id s = .ok o s') : ∃ pool, p.Completed s pool o := by
  obtain ⟨hoffer, hask, pool, o', hpool, hrun, rfl⟩ := complete_eq_ok.1 h
  obtain ⟨deposits, balances, share, issued, haccepted⟩ := Deposit.accepted_of_run hrun
  exact ⟨pool, hpool, hoffer, hask, deposits, balances, share, issued, { haccepted with }⟩

theorem state_of_complete {p : Provision} {s s' : State} {id : String} {o : Outcome}
    (h : p.complete id s = .ok o s') : s' = s.savePool o.pool := by
  obtain ⟨-, -, pool, o', -, hrun, rfl⟩ := complete_eq_ok.1 h
  have hstate := Deposit.state_of_run hrun
  exact hstate

theorem keepsOnError_complete (p : Provision) (id : String) : (p.complete id).KeepsOnError := by
  refine .get_bind fun s => .lift_bind fun _ => .lift_bind fun _ => .lift_bind fun pool => ?_
  exact (p.completion.keepsOnError_run pool).bind_pure _

theorem gains_refund (p : Provision) (id a denom : String) :
    Effect.gains (p.refund id).effects a denom =
      Ledger.gainOf p.sender [p.wholeOffer] a denom -
        Ledger.gainOf managerAddress [p.wholeOffer] a denom := by
  simp only [refund, Effect.gains_cons, Effect.gains_nil, Effect.gain, Int.add_zero]

end Provision

namespace Confirmation

/-- The state in which a provision has been taken up. -/
def taken (s : State) (id : String) : State := { s with provisions := s.provisions.erase id }

/-- A confirmation that went through finishes its deposit or pays it back. -/
inductive Taken (c : Confirmation) (s : State) : Settlement → State → Prop
  | completed {p : Provision} {o : Outcome} (success : c.success = true)
      (waiting : s.provisions.get? c.provision = some p)
      (complete : p.complete c.provision (taken s c.provision) =
        .ok o ((taken s c.provision).savePool o.pool)) :
      Taken c s o.settlement ((taken s c.provision).savePool o.pool)
  | refunded {p : Provision} (failure : c.success = false)
      (waiting : s.provisions.get? c.provision = some p) :
      Taken c s (p.refund c.provision) (taken s c.provision)

theorem taken_of_none {s : State} {id : String} (h : s.provisions.get? id = none) :
    taken s id = s := by
  rw [taken, Table.erase_of_none h]

theorem run_eq (c : Confirmation) (s : State) :
    c.run s =
      match s.provisions.get? c.provision with
      | none => .error (.fault (.noPendingProvision c.provision)) s
      | some p =>
        if c.success then
          match p.complete c.provision (taken s c.provision) with
          | .ok o s' => .ok o.settlement s'
          | .error e s' => .error e s'
        else .ok (p.refund c.provision) (taken s c.provision) := by
  rw [run, State.takeProvision_bind, ← taken]
  cases hwaiting : s.provisions.get? c.provision with
  | none =>
      rw [taken_of_none hwaiting]
      rfl
  | some p =>
      dsimp only
      split
      · simp only [bind, EStateM.bind]
        cases p.complete c.provision (taken s c.provision) <;> rfl
      · rfl

theorem taken_of_run {c : Confirmation} {s s' : State} {settlement : Settlement}
    (h : c.run s = .ok settlement s') : c.Taken s settlement s' := by
  rw [run_eq] at h
  cases hp : s.provisions.get? c.provision with
  | none =>
      simp only [hp] at h
      cases h
  | some p =>
      simp only [hp] at h
      split at h
      · rename_i hsuccess
        split at h
        · rename_i o s₁ ho
          cases h
          have hstate := Provision.state_of_complete ho
          subst hstate
          exact .completed hsuccess hp ho
        · cases h
      · rename_i hfailure
        cases h
        exact .refunded (by simpa using hfailure) hp

/-- A confirmation that fails has taken up its provision, if there was one. -/
theorem state_of_error {c : Confirmation} {s s' : State} {e : Failure}
    (h : c.run s = .error e s') : s' = taken s c.provision := by
  rw [run_eq] at h
  split at h
  · rename_i hnone
    cases h
    exact (taken_of_none hnone).symm
  · rename_i p hwaiting
    split at h
    · split at h
      · cases h
      · rename_i herror
        cases h
        exact p.keepsOnError_complete _ _ _ _ herror
    · cases h

end Confirmation

end MarketMaker
