import MarketMaker.Proofs.Chain.Sound
import MarketMaker.Proofs.Liquidity.RoundTrip

/-! # Transactions as steps of a series

A series follows one pool from call to call. The deposits and withdrawals that a chain executes are
such calls: those that succeed find what the last has left, since those that fail and the funds that
move in between change neither pools nor supplies. -/

namespace MarketMaker

/-! ## States that a series does not tell apart -/

structure State.SamePools (s s' : State) : Prop where
  registry : s'.registry = s.registry
  supply : ∀ share, s'.ledger.supply share = s.ledger.supply share

namespace State.SamePools

variable {s s₁ s' : State}

theorem refl (s : State) : s.SamePools s := ⟨rfl, fun _ => rfl⟩

theorem trans (h : s.SamePools s₁) (h' : s₁.SamePools s') : s.SamePools s' :=
  ⟨h'.registry.trans h.registry, fun share => (h'.supply share).trans (h.supply share)⟩

end State.SamePools

/-- What an outcome leaves is left in every state with the same pools and supplies. -/
theorem Outcome.Leaves.congr {o : Outcome} {s s₁ s' : State} (h : o.Leaves s s₁)
    (hsame : s₁.SamePools s') : o.Leaves s s' where
  stored := by
    rw [hsame.registry]
    exact h.stored
  supply := (hsame.supply _).trans h.supply

namespace Chain

variable {identifier sender : String} {funds : List Coin} {c c' : Chain} {r : Response}
  {o : Outcome} {e : Event}

/-! ## One transaction -/

theorem samePools_funded {l : Ledger}
    (h : Ledger.transfer sender managerAddress funds c.state.ledger = .ok () l) :
    c.state.SamePools (c.counted.funded l).state where
  registry := rfl
  supply share := ((Ledger.moved_of_transfer h).supply share).trans (Int.add_zero _)

theorem leaves_of_applyMessages {l : Ledger}
    (h : applyMessages o.settlement.toResponse.messages
      { c with state := (c.funded l).state.savePool o.pool } = .ok () c') :
    o.Leaves (c.funded l).state c'.state := by
  rw [applyMessages_toResponse] at h
  have hmoved := moved_of_applyEffects h
  have hbooks := sameBooks_of_applyEffects h
  refine ⟨?_, hmoved.supply o.pool.lpDenom⟩
  rw [hbooks.registry]
  simp only [State.savePool, Registry.save, Table.get?_put, ite_true]

/-- From the pools and supplies of a chain, a call runs and leaves those of another. -/
def LeadsTo (identifier : String) (c c' : Chain) (a : LiquidityCall) (o : Outcome) : Prop :=
  ∃ s t, c.state.SamePools s ∧ LiquidityCall.run identifier a s = .ok o t ∧ o.Leaves s c'.state

theorem leadsTo_of_withdraw (h : execute sender funds (.withdraw identifier) c = .ok r c') :
    ∃ o, LeadsTo identifier c c' (.withdrawal (c.nextCall sender funds)) o := by
  obtain ⟨l, s, htransfer, hrun, hmessages⟩ := transact_eq_ok.1 (execute_eq_ok.1 h)
  obtain ⟨o, ho, rfl⟩ := Action.bind_pure_eq_ok.1 hrun
  obtain rfl := Withdrawal.state_of_run ho
  exact ⟨o, _, _, samePools_funded htransfer, ho, leaves_of_applyMessages hmessages⟩

theorem leadsTo_of_deposit {order : DepositOrder}
    (h : execute sender funds (.deposit order) c = .ok r c')
    (hseveral : ∀ p coins, DepositOrder.Brings (c.nextCall sender funds) p coins →
      coins.length ≠ 1) :
    ∃ coins o, LeadsTo order.pool c c'
      (.deposit (order.deposit (c.nextCall sender funds) coins)) o ∧ ∀ x ∈ coins, 0 ≤ x.amount := by
  obtain ⟨l, s, htransfer, hrun, hmessages⟩ := transact_eq_ok.1 (execute_eq_ok.1 h)
  obtain ⟨-, -, p, coins, hstored, hbrings, -⟩ := DepositOrder.run_eq_ok_iff.1 hrun
  obtain ⟨-, -, o, ho, rfl⟩ :=
    (DepositOrder.run_several_eq_ok hstored hbrings (hseveral p coins hbrings)).1 hrun
  obtain rfl := Deposit.state_of_run ho
  have hinto := Deposit.into_eq_ok.2 ⟨p, hstored, ho⟩
  exact ⟨coins, o, ⟨_, _, samePools_funded htransfer, hinto, leaves_of_applyMessages hmessages⟩,
    fun x hx => Int.le_of_lt (hbrings.amount_pos x hx)⟩

/-- A withdrawal from the pool under an identifier, or a deposit in it of two denoms or more. -/
inductive Event.Supplies (identifier : String) : Event → Prop
  | deposit {sender : String} {funds : List Coin} {order : DepositOrder} {x y : String}
      (pool : order.pool = identifier) (nonneg : ∀ c ∈ funds, 0 ≤ c.amount) (several : x ≠ y)
      (first : 0 < Coin.total x funds) (second : 0 < Coin.total y funds) :
      Supplies identifier (.execute sender funds (.deposit order))
  | withdraw {sender : String} {funds : List Coin} (nonneg : ∀ c ∈ funds, 0 ≤ c.amount) :
      Supplies identifier (.execute sender funds (.withdraw identifier))

theorem several_of_brings {call : Call} {p : Pool} {coins : List Coin} {x y : String}
    (h : DepositOrder.Brings call p coins) (hnonneg : ∀ c ∈ call.funds, 0 ≤ c.amount)
    (hne : x ≠ y) (hx : 0 < Coin.total x call.funds) (hy : 0 < Coin.total y call.funds) :
    coins.length ≠ 1 := by
  intro hone
  obtain ⟨coin, rfl⟩ := List.length_eq_one_iff.1 hone
  rw [← h.total_eq hnonneg, Coin.total_singleton] at hx hy
  split at hx
  · rename_i hcoin
    rw [if_neg (hcoin ▸ hne)] at hy
    omega
  · omega

theorem execute_ok_or_samePools (sender : String) (funds : List Coin) (op : Operation) (c : Chain) :
    (∃ r, execute sender funds op c = .ok r (after (perform (.execute sender funds op)) c)) ∨
      c.state.SamePools (after (perform (.execute sender funds op)) c).state := by
  rw [after_perform_execute]
  cases h : execute sender funds op c with
  | ok r c' => exact .inl ⟨r, by rw [after_eq_of_ok h]⟩
  | error f c' =>
      rw [execute_eq] at h
      obtain ⟨c₁, -, rfl⟩ := atomically_eq_error.1 h
      rw [after_execute_eq, after, h]
      exact .inr ⟨rfl, fun _ => rfl⟩

/-- A transaction that supplies the pool is a call on it, or changes nothing of it. -/
theorem leadsTo_or_samePools (he : e.Supplies identifier) (c : Chain) :
    (∃ a o, LeadsTo identifier c (after (perform e) c) a o ∧ ∀ x ∈ a.coins, 0 ≤ x.amount) ∨
      c.state.SamePools (after (perform e) c).state := by
  cases he with
  | deposit pool nonneg several first second =>
      subst pool
      refine (execute_ok_or_samePools _ _ _ c).imp_left fun ⟨_, h⟩ => ?_
      obtain ⟨coins, o, hleads, hcoins⟩ := leadsTo_of_deposit h fun _ _ hbrings =>
        several_of_brings hbrings nonneg several first second
      exact ⟨_, o, hleads, hcoins⟩
  | withdraw nonneg =>
      refine (execute_ok_or_samePools _ _ _ c).imp_left fun ⟨_, h⟩ => ?_
      obtain ⟨o, hleads⟩ := leadsTo_of_withdraw h
      exact ⟨_, o, hleads, nonneg⟩

/-! ## Runs -/

/-- The transactions of a run that supply one pool make a series, in which those that fail are left
out. -/
theorem exists_series_of_run {events : List Event} (h : ∀ e ∈ events, e.Supplies identifier)
    (c : Chain) :
    ∃ steps s s', c.state.SamePools s ∧ Series (LiquidityCall.run identifier) s steps s' ∧
      s'.SamePools (run events c).state ∧ ∀ step ∈ steps, ∀ x ∈ step.1.coins, 0 ≤ x.amount := by
  induction events generalizing c with
  | nil => exact ⟨[], _, _, .refl _, .nil _, .refl _, fun _ hstep => nomatch hstep⟩
  | cons e rest ih =>
      rw [List.forall_mem_cons] at h
      obtain ⟨steps, s, s', hbefore, hseries, hafter, hcoins⟩ := ih h.2 (after (perform e) c)
      rw [← run_cons] at hafter
      rcases leadsTo_or_samePools h.1 c with ⟨a, o, ⟨s₀, _, hfirst, hrun, hleft⟩, ha⟩ | hsame
      · exact ⟨(a, o) :: steps, s₀, s', hfirst, .cons hrun (hleft.congr hbefore) hseries, hafter,
          List.forall_mem_cons.2 ⟨ha, hcoins⟩⟩
      · exact ⟨steps, s, s', hsame.trans hbefore, hseries, hafter, hcoins⟩

end Chain

end MarketMaker
