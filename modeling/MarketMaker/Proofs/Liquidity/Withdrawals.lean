import Mathlib.Tactic.Linarith
import MarketMaker.Proofs.Liquidity.Series

/-! # Withdrawals in several parts

What a withdrawal rounds off stays in the pool for the shares that are left, and a later withdrawal
pays its part of that too. Still no way to split a withdrawal pays more than a single one: no asset
falls per share, and what is paid is what the pool loses. -/

namespace MarketMaker.Withdrawal

variable {identifier : String} {s t s₁ s' : State} {call : Call} {pool p q r : Pool} {amount : Int}
  {o : Outcome}

/-! ## One withdrawal -/

namespace Paid

theorem sent_eq (h : Paid identifier s call pool amount o) :
    o.sent = payments pool (s.shareSupply pool) amount := by
  rw [Outcome.sent, h.effects_eq]
  split
  · rename_i hempty
    simp [hempty, Effect.sent]
  · simp [Effect.sent]

/-- A withdrawal pays its part of each asset, rounded down. -/
theorem total_sent (h : Paid identifier s call pool amount o) (hpool : pool.Valid)
    (hamount : 0 ≤ amount) (denom : String) :
    Coin.total denom o.sent = (pool.reserve denom * amount).fdiv (s.shareSupply pool) := by
  rw [h.sent_eq, h.total_payments_eq hpool hamount]

theorem reserve_add_sent (h : Paid identifier s call pool amount o) (hpool : pool.Valid)
    (hamount : 0 ≤ amount) (denom : String) :
    o.pool.reserve denom + Coin.total denom o.sent = pool.reserve denom := by
  rw [h.reserve_eq hpool hamount, h.sent_eq]
  omega

/-- The part that stays is rounded up, so no share that is left loses of any asset. -/
theorem keepsShares (h : Paid identifier s call pool amount o) (hpool : pool.Valid)
    (hamount : 0 < amount) (hrefills : o.Refills pool) (hleft : o.Leaves s s') :
    KeepsShares s pool s' o.pool := by
  have hle := h.amount_le
  have hpos : 0 < s.shareSupply pool := by omega
  have hissues : Effect.issues o.settlement.effects pool.lpDenom = -amount := by
    rw [h.issues_eq, if_pos rfl]
  have hreserve (denom : String) : o.pool.reserve denom = pool.reserve denom -
      (pool.reserve denom * amount).fdiv (s.shareSupply pool) := by
    rw [← h.total_payments_eq hpool (Int.le_of_lt hamount)]
    exact h.reserve_eq hpool (Int.le_of_lt hamount) denom
  apply KeepsShares.of_leaves hleft hrefills hpool
  · omega
  · intro hzero denom
    have hall : amount = s.shareSupply pool := by omega
    rw [hreserve, hall, Int.mul_fdiv_cancel _ (Int.ne_of_gt hpos), Int.sub_self]
  · intro denom
    have hpaid := fdiv_mul_le (pool.reserve denom * amount) hpos
    rw [hreserve, hissues]
    linarith

end Paid

/-! ## Withdrawals one after the other -/

/-- The shares that withdrawals burn in all. -/
def burnedBy (share : String) (steps : List (Call × Outcome)) : Int :=
  sumOf (steps.map fun e => Coin.total share e.1.funds)

/-- What withdrawals pay of a denom in all. -/
def paidBy (denom : String) (steps : List (Call × Outcome)) : Int :=
  sumOf (steps.map fun e => Coin.total denom e.2.sent)

theorem burnedBy_cons (share : String) (e : Call × Outcome) (rest : List (Call × Outcome)) :
    burnedBy share (e :: rest) = Coin.total share e.1.funds + burnedBy share rest := rfl

theorem paidBy_cons (denom : String) (e : Call × Outcome) (rest : List (Call × Outcome)) :
    paidBy denom (e :: rest) = Coin.total denom e.2.sent + paidBy denom rest := rfl

/-- What withdrawals leave of a pool: it lacks what they have paid, and its supply lacks what they
have burned. -/
structure Left (s : State) (p : Pool) (steps : List (Call × Outcome)) (s' : State) (q : Pool) :
    Prop where
  keeps : KeepsShares s p s' q
  shrinks : s'.shareSupply q ≤ s.shareSupply p
  valid : ∀ e ∈ steps, e.2.pool.Valid
  burned : s'.shareSupply q + burnedBy p.lpDenom steps = s.shareSupply p
  paid : ∀ denom, q.reserve denom + paidBy denom steps = p.reserve denom

theorem Left.nil (h : s.Backs p) : Left s p [] s p where
  keeps := .refl h
  shrinks := Int.le_refl _
  valid := fun _ he => nomatch he
  burned := Int.add_zero _
  paid := fun _ => Int.add_zero _

theorem Left.cons {rest : List (Call × Outcome)} (h : Left s p [(call, o)] s₁ q)
    (h' : Left s₁ q rest s' r) (hp : 0 ≤ s.shareSupply p) :
    Left s p ((call, o) :: rest) s' r where
  keeps := by
    refine h.keeps.trans h'.keeps hp fun hzero => ?_
    have hshrinks := h'.shrinks
    have hsupply := h'.keeps.backs.supply
    omega
  shrinks := Int.le_trans h'.shrinks h.shrinks
  valid := List.forall_mem_cons.2 ⟨h.valid _ List.mem_cons_self, h'.valid⟩
  burned := by
    have hfirst := h.burned
    have hrest := h'.burned
    rw [h.keeps.lpDenom] at hrest
    rw [burnedBy_cons] at hfirst ⊢
    have hnone : burnedBy p.lpDenom [] = 0 := rfl
    omega
  paid := by
    intro denom
    have hfirst := h.paid denom
    have hrest := h'.paid denom
    rw [paidBy_cons] at hfirst ⊢
    have hnone : paidBy denom [] = 0 := rfl
    omega

theorem left_of_run (hrun : run p.identifier call s = .ok o t) (hleft : o.Leaves s s')
    (hp : s.Backs p) (hfunds : ∀ c ∈ call.funds, 0 ≤ c.amount) :
    Left s p [(call, o)] s' o.pool := by
  obtain ⟨pool, amount, hpaid⟩ := paid_of_run hrun
  obtain rfl : pool = p := Option.some.inj (hpaid.stored.symm.trans hp.stored)
  have hamount := hpaid.amount_pos hfunds
  have hrefills := hpaid.refills_pool hp.valid hfunds
  have hshares := hleft.shareSupply_eq hrefills.lpDenom
  rw [hpaid.issues_eq, if_pos rfl] at hshares
  refine ⟨hpaid.keepsShares hp.valid hamount hrefills hleft, by omega, ?_, ?_, ?_⟩
  · intro e he
    rw [List.mem_singleton.1 he]
    exact hrefills.valid hp.valid
  · rw [burnedBy, List.map_singleton, sumOf_cons, sumOf_nil, hpaid.funds, Coin.total_singleton,
      if_pos rfl, hshares]
    dsimp only
    omega
  · intro denom
    rw [paidBy, List.map_singleton, sumOf_cons, sumOf_nil, Int.add_zero]
    exact hpaid.reserve_add_sent hp.valid (Int.le_of_lt hamount) denom

theorem left_of_series {steps : List (Call × Outcome)}
    (hseries : Series (run identifier) s steps s')
    (hfunds : ∀ e ∈ steps, ∀ c ∈ e.1.funds, 0 ≤ c.amount) (hid : p.identifier = identifier)
    (hp : s.Backs p) : ∃ q, Left s p steps s' q := by
  induction hseries generalizing p with
  | nil s => exact ⟨p, .nil hp⟩
  | cons ran left more ih =>
      rw [List.forall_mem_cons] at hfunds
      have hstep := left_of_run (hid ▸ ran) left hp hfunds.1
      obtain ⟨q, hrest⟩ := ih hfunds.2 (hstep.keeps.identifier.trans hid) hstep.keeps.backs
      exact ⟨q, hstep.cons hrest hp.supply⟩

theorem Left.paidBy_le {steps : List (Call × Outcome)} (h : Left s p steps s' q)
    (hsupply : 0 < s.shareSupply p) (denom : String) : paidBy denom steps ≤
      (p.reserve denom * burnedBy p.lpDenom steps).fdiv (s.shareSupply p) := by
  have hgrows := h.keeps.grows denom
  rw [le_fdiv_iff hsupply, ← h.paid denom]
  rw [← h.paid denom, ← h.burned] at hgrows
  rw [← h.burned]
  linarith

/-- A pool without reserves has no assets above zero. -/
theorem amount_eq_zero_of_reserve (hp : p.Valid) (h : ∀ denom, p.reserve denom = 0) :
    ∀ c ∈ p.assets, c.amount = 0 := by
  intro c hc
  rw [← Coin.total_of_mem hp.denoms_nodup hc]
  exact h c.denom

/-- However a withdrawal is split, it pays no more of any asset than at once, and all that there is
of each asset where all shares are burned. -/
theorem paid_in_parts_le {steps : List (Call × Outcome)}
    (hstored : s.registry.get? p.identifier = some p) (hvalid : p.Valid)
    (hsupply : 0 < s.shareSupply p) (hseries : Series (run p.identifier) s steps s')
    (hfunds : ∀ e ∈ steps, ∀ c ∈ e.1.funds, 0 ≤ c.amount) :
    burnedBy p.lpDenom steps ≤ s.shareSupply p ∧
      (∀ denom, paidBy denom steps ≤
        (p.reserve denom * burnedBy p.lpDenom steps).fdiv (s.shareSupply p)) ∧
      (∀ e ∈ steps, ∀ c ∈ e.2.pool.assets, 0 ≤ c.amount) ∧
      ∃ q, s'.registry.get? p.identifier = some q ∧
        s'.shareSupply q = s.shareSupply p - burnedBy p.lpDenom steps ∧
        (burnedBy p.lpDenom steps = s.shareSupply p →
          (∀ denom, paidBy denom steps = p.reserve denom) ∧ ∀ c ∈ q.assets, c.amount = 0) := by
  obtain ⟨q, hleft⟩ := left_of_series hseries hfunds rfl (.of_pos hstored hvalid hsupply)
  have hburned := hleft.burned
  have hbacks := hleft.keeps.backs
  have hnonneg := hbacks.supply
  refine ⟨by omega, hleft.paidBy_le hsupply, ?_, q, hleft.keeps.identifier ▸ hbacks.stored,
    by omega, ?_⟩
  · intro e he c hc
    exact ((hleft.valid e he).assets_valid c hc).2.1
  · intro hall
    have hnone := hbacks.empty (by omega)
    refine ⟨fun denom => ?_, amount_eq_zero_of_reserve hbacks.valid hnone⟩
    have hpaid := hleft.paid denom
    rwa [hnone denom, Int.zero_add] at hpaid

def smallPool : Pool where
  identifier := "o.small"
  assets := [⟨"uom", 7⟩, ⟨"uusd", 11⟩]
  curve := .constantProduct
  lpDenom := "factory/o.small"
  fees := {}
  decimals := [6, 6]

def burning (amount : Int) : Call := ⟨"alice", [⟨"factory/o.small", amount⟩], "tx-1"⟩

theorem paid_in_parts_le_small :
    ∃ steps s', Series (run "o.small") (.holding smallPool 5) steps s' ∧
      burnedBy "factory/o.small" steps = 5 ∧ paidBy "uom" steps = 7 ∧ paidBy "uusd" steps = 11 := by
  obtain ⟨_, _, hfirst⟩ : ∃ attributes t, run "o.small" (burning 2) (.holding smallPool 5) =
      .ok ⟨smallPool.withAssets [⟨"uom", 5⟩, ⟨"uusd", 7⟩],
        [.send "alice" [⟨"uom", 2⟩, ⟨"uusd", 4⟩], .burnShare "factory/o.small" 2], attributes⟩ t :=
    ⟨_, _, rfl⟩
  obtain ⟨_, _, hsecond⟩ : ∃ attributes t,
      run "o.small" (burning 3) (.holding (smallPool.withAssets [⟨"uom", 5⟩, ⟨"uusd", 7⟩]) 3) =
        .ok ⟨smallPool.withAssets [⟨"uom", 0⟩, ⟨"uusd", 0⟩],
          [.send "alice" [⟨"uom", 5⟩, ⟨"uusd", 7⟩], .burnShare "factory/o.small" 3],
          attributes⟩ t :=
    ⟨_, _, rfl⟩
  have hseries := Series.cons hfirst ⟨rfl, rfl⟩ (.cons hsecond ⟨rfl, rfl⟩
    (.nil (.holding (smallPool.withAssets [⟨"uom", 0⟩, ⟨"uusd", 0⟩]) 0)))
  obtain ⟨-, -, -, q, -, -, hall⟩ := @paid_in_parts_le (.holding smallPool 5) _ smallPool _ rfl
    (by decide) (by decide) hseries (by simp [burning])
  obtain ⟨hpaid, -⟩ := hall rfl
  exact ⟨_, _, hseries, rfl, hpaid "uom", hpaid "uusd"⟩

end MarketMaker.Withdrawal
