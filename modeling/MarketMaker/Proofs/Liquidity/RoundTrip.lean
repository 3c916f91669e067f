import MarketMaker.Proofs.Liquidity.Withdrawals
import MarketMaker.Proofs.Operation.Worth

/-! # Deposits and withdrawals on the constant product curve

The shares of a deposit are what its scarcer asset claims, rounded down, and a withdrawal pays its
part of each asset, rounded down. So neither takes any asset from the shares that are there, and no
order or split of them brings back more of an asset than it brought. -/

namespace MarketMaker

/-- A pool of two assets on the constant product curve, with what it needs to be followed. -/
structure State.BacksPair (s : State) (p : Pool) : Prop extends s.Backs p where
  two : p.assets.length = 2
  curve : p.curve = .constantProduct

theorem KeepsShares.backsPair {s s' : State} {p q : Pool} (h : KeepsShares s p s' q)
    (hp : s.BacksPair p) : s'.BacksPair q :=
  { h.backs with
    two := h.length.trans hp.two
    curve := h.curve.trans hp.curve }

/-! ## Deposits -/

namespace Deposit

variable {identifier : String} {s t s₁ s' : State} {d : Deposit} {p q r : Pool} {o : Outcome}

namespace Accepted

variable {deposits balances : List Int} {share : Int} {issued : List Effect}

theorem share_mul_reserve_le (h : d.Accepted s p deposits balances share issued o)
    (hp : s.BacksPair p) (hsupply : s.shareSupply p ≠ 0) {denom : String}
    (hdenom : denom ∈ p.denoms) :
    share * p.reserve denom ≤ d.amountOf denom * s.shareSupply p := by
  obtain ⟨c, hc, rfl⟩ := List.mem_map.1 hdenom
  rw [Pool.reserve, Coin.total_of_mem hp.valid.denoms_nodup hc]
  exact h.share_mul_le hp.valid hp.curve hp.two hsupply c hc

/-- A deposit brings at least what its shares have of each asset. -/
theorem keepsShares (h : d.Accepted s p deposits balances share issued o) (hp : s.BacksPair p)
    (hnonneg : ∀ c ∈ d.coins, 0 ≤ c.amount) (hleft : o.Leaves s s') :
    KeepsShares s p s' o.pool := by
  have hshare := h.share_pos
  have hsupply := hp.supply
  have hminted : 0 < Effect.issues o.settlement.effects p.lpDenom := by
    rw [h.issues_eq, if_pos rfl]
    split
    · exact Int.add_pos_of_pos_of_nonneg hshare (by decide)
    · omega
  apply KeepsShares.of_leaves hleft (h.refills_pool hp.valid hnonneg) hp.valid
  · omega
  · intro hzero
    omega
  · intro denom
    by_cases hzero : s.shareSupply p = 0
    · rw [hp.empty hzero denom, hzero, Int.zero_mul, Int.mul_zero]
    · rw [h.issues_eq_share hzero, h.reserve_eq_add hp.valid.denoms_nodup]
      by_cases hdenom : denom ∈ p.denoms
      · have hclaim := h.share_mul_reserve_le hp hzero hdenom
        rw [if_pos hdenom]
        linarith
      · rw [if_neg hdenom, Pool.reserve, Coin.total_of_not_mem hdenom, Int.zero_mul, Int.zero_add,
          Int.zero_mul]

end Accepted

/-- A deposit into the pool that is kept under an identifier. -/
def into (identifier : String) (d : Deposit) : Action State Outcome := do
  let s ← get
  let pool ← s.pool identifier
  d.run pool

/-- The shares that deposits issue in all. -/
def mintedBy (share : String) (steps : List (Deposit × Outcome)) : Int :=
  sumOf (steps.map fun e => Effect.issues e.2.settlement.effects share)

/-- What deposits bring of a denom in all. -/
def broughtBy (denom : String) (steps : List (Deposit × Outcome)) : Int :=
  sumOf (steps.map fun e => e.1.amountOf denom)

theorem mintedBy_cons (share : String) (e : Deposit × Outcome) (rest : List (Deposit × Outcome)) :
    mintedBy share (e :: rest) =
      Effect.issues e.2.settlement.effects share + mintedBy share rest := rfl

theorem broughtBy_cons (denom : String) (e : Deposit × Outcome) (rest : List (Deposit × Outcome)) :
    broughtBy denom (e :: rest) = e.1.amountOf denom + broughtBy denom rest := rfl

theorem into_eq_ok : into identifier d s = .ok o t ↔
    ∃ pool, s.registry.get? identifier = some pool ∧ d.run pool s = .ok o t := by
  simp only [into, Action.get_bind, Action.lift_bind_eq_ok, State.pool, Registry.get_eq_ok_iff]

theorem accepted_of_into (h : into identifier d s = .ok o t)
    (hstored : s.registry.get? identifier = some p) :
    ∃ deposits balances share issued, d.Accepted s p deposits balances share issued o := by
  obtain ⟨pool, hpool, hrun⟩ := into_eq_ok.1 h
  obtain rfl : pool = p := Option.some.inj (hpool.symm.trans hstored)
  exact accepted_of_run hrun

/-- What deposits leave of a pool that has shares: more of them, and no more of any asset than they
brought. -/
structure Grown (s : State) (p : Pool) (steps : List (Deposit × Outcome)) (s' : State) (q : Pool) :
    Prop where
  keeps : KeepsShares s p s' q
  some : 0 < s'.shareSupply q
  minted : s'.shareSupply q = s.shareSupply p + mintedBy p.lpDenom steps
  brought : ∀ denom, q.reserve denom ≤ p.reserve denom + broughtBy denom steps

theorem Grown.nil (h : s.Backs p) (hsupply : 0 < s.shareSupply p) : Grown s p [] s p where
  keeps := .refl h
  some := hsupply
  minted := (Int.add_zero _).symm
  brought := fun _ => Int.le_of_eq (Int.add_zero _).symm

theorem Grown.cons {rest : List (Deposit × Outcome)} (h : Grown s p [(d, o)] s₁ q)
    (h' : Grown s₁ q rest s' r) (hp : 0 ≤ s.shareSupply p) : Grown s p ((d, o) :: rest) s' r where
  keeps := h.keeps.trans h'.keeps hp fun hzero => absurd hzero (Int.ne_of_gt h.some)
  some := h'.some
  minted := by
    have hfirst := h.minted
    have hrest := h'.minted
    rw [h.keeps.lpDenom] at hrest
    rw [mintedBy_cons] at hfirst ⊢
    have hnone : mintedBy p.lpDenom [] = 0 := rfl
    omega
  brought := by
    intro denom
    have hfirst := h.brought denom
    have hrest := h'.brought denom
    rw [broughtBy_cons] at hfirst ⊢
    have hnone : broughtBy denom [] = 0 := rfl
    omega

theorem grown_of_into (hrun : into p.identifier d s = .ok o t) (hleft : o.Leaves s s')
    (hp : s.BacksPair p) (hsupply : 0 < s.shareSupply p) (hnonneg : ∀ c ∈ d.coins, 0 ≤ c.amount) :
    Grown s p [(d, o)] s' o.pool := by
  obtain ⟨deposits, balances, share, issued, haccepted⟩ := accepted_of_into hrun hp.stored
  have hshare := haccepted.share_pos
  have hissues := haccepted.issues_eq_share (Int.ne_of_gt hsupply)
  have hshares := hleft.shareSupply_eq (haccepted.refills_pool hp.valid hnonneg).lpDenom
  refine ⟨haccepted.keepsShares hp hnonneg hleft, by omega, ?_, ?_⟩
  · rw [mintedBy, List.map_singleton, sumOf_cons, sumOf_nil, Int.add_zero]
    exact hshares
  · intro denom
    have hamount := amountOf_nonneg hnonneg denom
    rw [broughtBy, List.map_singleton, sumOf_cons, sumOf_nil, Int.add_zero,
      haccepted.reserve_eq_add hp.valid.denoms_nodup]
    dsimp only
    split <;> omega

theorem grown_of_series {steps : List (Deposit × Outcome)}
    (hseries : Series (into identifier) s steps s')
    (hnonneg : ∀ e ∈ steps, ∀ c ∈ e.1.coins, 0 ≤ c.amount) (hid : p.identifier = identifier)
    (hp : s.BacksPair p) (hsupply : 0 < s.shareSupply p) : ∃ q, Grown s p steps s' q := by
  induction hseries generalizing p with
  | nil s => exact ⟨p, .nil hp.toBacks hsupply⟩
  | cons ran left more ih =>
      rw [List.forall_mem_cons] at hnonneg
      have hstep := grown_of_into (hid ▸ ran) left hp hsupply hnonneg.1
      obtain ⟨q, hrest⟩ := ih hnonneg.2 (hstep.keeps.identifier.trans hid)
        (hstep.keeps.backsPair hp) hstep.some
      exact ⟨q, hstep.cons hrest hp.supply⟩

end Deposit

/-! ## Calls of both kinds -/

/-- A deposit of several assets, or a withdrawal. -/
inductive LiquidityCall
  | deposit (d : Deposit)
  | withdrawal (call : Call)
  deriving DecidableEq, Repr

namespace LiquidityCall

def run (identifier : String) : LiquidityCall → Action State Outcome
  | deposit d => d.into identifier
  | withdrawal call => Withdrawal.run identifier call

def coins : LiquidityCall → List Coin
  | deposit d => d.coins
  | withdrawal call => call.funds

variable {identifier : String} {s t s' : State} {a : LiquidityCall} {p : Pool} {o : Outcome}

theorem keepsShares_of_run (hrun : run p.identifier a s = .ok o t) (hleft : o.Leaves s s')
    (hp : s.BacksPair p) (hnonneg : ∀ c ∈ a.coins, 0 ≤ c.amount) : KeepsShares s p s' o.pool := by
  cases a with
  | deposit d =>
      obtain ⟨deposits, balances, share, issued, haccepted⟩ :=
        Deposit.accepted_of_into hrun hp.stored
      exact haccepted.keepsShares hp hnonneg hleft
  | withdrawal call => exact (Withdrawal.left_of_run hrun hleft hp.toBacks hnonneg).keeps

/-- Through any calls the pool stays one of two, and is empty whenever there are no shares. -/
theorem backsPair_of_series {steps : List (LiquidityCall × Outcome)}
    (hseries : Series (run identifier) s steps s')
    (hnonneg : ∀ e ∈ steps, ∀ c ∈ e.1.coins, 0 ≤ c.amount) (hid : p.identifier = identifier)
    (hp : s.BacksPair p) : ∃ q, q.identifier = identifier ∧ s'.BacksPair q := by
  induction hseries generalizing p with
  | nil s => exact ⟨p, hid, hp⟩
  | cons ran left more ih =>
      rw [List.forall_mem_cons] at hnonneg
      have hkeeps := keepsShares_of_run (hid ▸ ran) left hp hnonneg.1
      exact ih hnonneg.2 (hkeeps.identifier.trans hid) (hkeeps.backsPair hp)

end LiquidityCall

/-- What is paid for the shares of deposits, and for fewer, is no more of any asset than what the
deposits brought. -/
theorem Deposit.Grown.paidBy_le {s s₁ s' : State} {p q r : Pool}
    {ins : List (Deposit × Outcome)} {outs : List (Call × Outcome)} (h : Grown s p ins s₁ q)
    (h' : Withdrawal.Left s₁ q outs s' r) (hvalid : p.Valid) (hsupply : 0 < s.shareSupply p)
    (hburned : Withdrawal.burnedBy p.lpDenom outs ≤ mintedBy p.lpDenom ins) (denom : String) :
    Withdrawal.paidBy denom outs ≤ broughtBy denom ins := by
  have hminted := h.minted
  have hleft := h'.burned
  rw [h.keeps.lpDenom] at hleft
  have hkeeps : KeepsShares s p s' r := h.keeps.trans h'.keeps (Int.le_of_lt hsupply) fun hzero =>
    absurd hzero (Int.ne_of_gt h.some)
  have hreserve : p.reserve denom ≤ r.reserve denom := by
    refine Int.le_of_mul_le_mul_right ?_ hsupply
    calc p.reserve denom * s.shareSupply p ≤ p.reserve denom * s'.shareSupply r :=
          Int.mul_le_mul_of_nonneg_left (by omega) (Pool.reserve_nonneg hvalid denom)
      _ ≤ r.reserve denom * s.shareSupply p := hkeeps.grows denom
  have hbrought := h.brought denom
  have hpaid := h'.paid denom
  omega

/-- On a pool of two assets on the constant product curve, no deposit or withdrawal lowers the
reserve of an asset per share, whatever deposits and withdrawals came before. And deposits whose
shares are then withdrawn bring back no more of any asset than they brought. -/
theorem reserves_per_share_never_fall {s : State} {p : Pool}
    (hstored : s.registry.get? p.identifier = some p) (hvalid : p.Valid)
    (htwo : p.assets.length = 2) (hcurve : p.curve = .constantProduct)
    (hsupply : 0 < s.shareSupply p) :
    (∀ steps s₁ a o t s₂, Series (LiquidityCall.run p.identifier) s steps s₁ →
      (∀ e ∈ steps, ∀ c ∈ e.1.coins, 0 ≤ c.amount) →
      LiquidityCall.run p.identifier a s₁ = .ok o t → (∀ c ∈ a.coins, 0 ≤ c.amount) →
      o.Leaves s₁ s₂ →
      ∃ q, s₁.registry.get? p.identifier = some q ∧
        s₂.registry.get? p.identifier = some o.pool ∧
        ∀ denom, q.reserve denom * s₂.shareSupply o.pool ≤
          o.pool.reserve denom * s₁.shareSupply q) ∧
    ∀ ins outs s₁ s₂, Series (Deposit.into p.identifier) s ins s₁ →
      (∀ e ∈ ins, ∀ c ∈ e.1.coins, 0 ≤ c.amount) →
      Series (Withdrawal.run p.identifier) s₁ outs s₂ →
      (∀ e ∈ outs, ∀ c ∈ e.1.funds, 0 ≤ c.amount) →
      Withdrawal.burnedBy p.lpDenom outs ≤ Deposit.mintedBy p.lpDenom ins →
      ∀ denom, Withdrawal.paidBy denom outs ≤ Deposit.broughtBy denom ins := by
  have hp : s.BacksPair p :=
    { State.Backs.of_pos hstored hvalid hsupply with
      two := htwo
      curve := hcurve }
  constructor
  · intro steps s₁ a o t s₂ hseries hnonneg hrun hcoins hleft
    obtain ⟨q, hid, hq⟩ := LiquidityCall.backsPair_of_series hseries hnonneg rfl hp
    have hkeeps := LiquidityCall.keepsShares_of_run (hid ▸ hrun) hleft hq hcoins
    exact ⟨q, hid ▸ hq.stored, hid ▸ hkeeps.identifier ▸ hkeeps.backs.stored, hkeeps.grows⟩
  · intro ins outs s₁ s₂ hins hcoins houts hfunds hburned denom
    obtain ⟨q, hgrown⟩ := Deposit.grown_of_series hins hcoins rfl hp hsupply
    obtain ⟨r, hleft⟩ :=
      Withdrawal.left_of_series houts hfunds hgrown.keeps.identifier hgrown.keeps.backs
    exact hgrown.paidBy_le hleft hvalid hsupply hburned denom

namespace Withdrawal

def smallWith (uom uusd : Int) : Pool := smallPool.withAssets [⟨"uom", uom⟩, ⟨"uusd", uusd⟩]

def bringing (uom uusd : Int) : Deposit :=
  ⟨[⟨"uom", uom⟩, ⟨"uusd", uusd⟩], "alice", "alice", none, none, none⟩

end Withdrawal

open Withdrawal in
theorem reserves_per_share_never_fall_small :
    ∃ ins outs s₁ s₂, Series (Deposit.into "o.small") (.holding smallPool 5) ins s₁ ∧
      Series (run "o.small") s₁ outs s₂ ∧ burnedBy "factory/o.small" outs = 2 ∧
      Deposit.mintedBy "factory/o.small" ins = 2 ∧
      (paidBy "uom" outs = 2 ∧ Deposit.broughtBy "uom" ins = 4 ∧ (2 : Int) ≤ 4) ∧
      (paidBy "uusd" outs = 4 ∧ Deposit.broughtBy "uusd" ins = 5 ∧ (4 : Int) ≤ 5) ∧
      (7 : Int) * 7 ≤ 11 * 5 ∧ (11 : Int) * 7 ≤ 16 * 5 := by
  obtain ⟨_, _, hin⟩ : ∃ attributes t,
      Deposit.into "o.small" (bringing 4 5) (.holding smallPool 5) =
        .ok ⟨smallWith 11 16, [.mintShare "factory/o.small" 2 "alice"], attributes⟩ t :=
    ⟨_, _, rfl⟩
  obtain ⟨_, _, hfirst⟩ : ∃ attributes t,
      run "o.small" (burning 1) (.holding (smallWith 11 16) 7) =
        .ok ⟨smallWith 10 14, [.send "alice" [⟨"uom", 1⟩, ⟨"uusd", 2⟩],
          .burnShare "factory/o.small" 1], attributes⟩ t := ⟨_, _, rfl⟩
  obtain ⟨_, _, hsecond⟩ : ∃ attributes t,
      run "o.small" (burning 1) (.holding (smallWith 10 14) 6) =
        .ok ⟨smallWith 9 12, [.send "alice" [⟨"uom", 1⟩, ⟨"uusd", 2⟩],
          .burnShare "factory/o.small" 1], attributes⟩ t := ⟨_, _, rfl⟩
  have hins := Series.cons hin ⟨rfl, rfl⟩ (.nil (.holding (smallWith 11 16) 7))
  have houts := Series.cons hfirst ⟨rfl, rfl⟩
    (.cons hsecond ⟨rfl, rfl⟩ (.nil (.holding (smallWith 9 12) 5)))
  obtain ⟨hstep, hround⟩ := @reserves_per_share_never_fall (.holding smallPool 5) smallPool rfl
    (by decide) rfl rfl (by decide)
  obtain ⟨q, hq, -, hgrows⟩ := hstep [] _ (.deposit (bringing 4 5)) _ _
    (.holding (smallWith 11 16) 7) (.nil _) (by simp) hin
    (by simp [LiquidityCall.coins, bringing]) ⟨rfl, rfl⟩
  obtain rfl : smallPool = q := Option.some.inj hq
  have hback := hround _ _ _ _ hins (by simp [bringing]) houts (by simp [burning]) (Int.le_refl 2)
  exact ⟨_, _, _, _, hins, houts, rfl, rfl, ⟨rfl, rfl, hback "uom"⟩, ⟨rfl, rfl, hback "uusd"⟩,
    hgrows "uom", hgrows "uusd"⟩

end MarketMaker
