import MarketMaker.Proofs.Liquidity.Slippage
import MarketMaker.Proofs.Liquidity.StableRoundTrip

/-! # What a slippage tolerance grants on the stableswap curve

The guard compares what the pool is worth per share with what a deposit brings per new share, and
refuses a deposit that is given too many shares for what it brings. A depositor is given few where
the deposit is far from the pool's ratio, for then the invariant grows by little; this the guard
lets through. The depositor loses no more than the tolerance exactly where the computed invariant
has grown by enough, as the exact one does where the deposit keeps to the ratio. -/

namespace MarketMaker

namespace Share

variable {t : Ratio} {deposits balances : List Int} {amp share supply k k' : Int}

/-- A number of shares that is worth less than what a tolerance keeps of a deposit. -/
def FallsShort (t : Ratio) (deposits balances : List Int) (supply k : Int) : Prop :=
  k * sumOf balances * Ratio.unit < (Ratio.unit - t.atomics) * sumOf deposits * supply

instance : Decidable (FallsShort t deposits balances supply k) :=
  inferInstanceAs (Decidable (_ < _))

/-- A deposit brings at least the part that a tolerance keeps of each asset's proportion. -/
def KeepsRatio (t : Ratio) (deposits balances : List Int) : Prop :=
  ∀ e ∈ deposits.zip balances,
    (Ratio.unit - t.atomics) * sumOf deposits * e.2 ≤ e.1 * sumOf balances * Ratio.unit

instance : Decidable (KeepsRatio t deposits balances) :=
  inferInstanceAs (Decidable (∀ e ∈ deposits.zip balances, _))

theorem FallsShort.mono (h : FallsShort t deposits balances supply k') (hle : k ≤ k')
    (hbalances : 0 ≤ sumOf balances) : FallsShort t deposits balances supply k := by
  have hunit : (0 : Int) ≤ Ratio.unit := by decide
  refine Int.lt_of_le_of_lt (Int.mul_le_mul_of_nonneg_right ?_ hunit) h
  exact Int.mul_le_mul_of_nonneg_right hle hbalances

/-- The guard bounds the shares from above. -/
theorem share_kept (h : checkSlippage (some t) ⟨deposits, balances, share, supply⟩
    (.stableSwap amp) = .ok ()) (hsupply : supply ≠ 0) : t ≤ Ratio.one ∧
      sumOf balances * (Ratio.unit - t.atomics) * share ≤
        sumOf deposits * supply * Ratio.unit := by
  obtain ⟨keep, hkeep, hchecked⟩ := exists_keep h hsupply
  have hkept : ¬ValueExceeded keep ⟨deposits, balances, share, supply⟩ :=
    (Result.guarded_eq_ok.1 hchecked).1
  have hpart : (Ratio.unit - t.atomics : Int) = keep.atomics := by omega
  rw [hpart]
  refine ⟨Ratio.le_def.2 ?_, Int.not_lt.1 hkept⟩
  change t.atomics ≤ Ratio.unit
  omega

/-- Shares that fall short are fewer than those that an asset claims which is brought in proportion,
but for what the tolerance takes off. -/
theorem mul_lt_claim {keep unit sum total a b : Int} (hunit : 0 < sum * unit) (hb : 0 < b)
    (hsupply : 0 ≤ supply) (hkeeps : keep * total * b ≤ a * sum * unit)
    (hshort : k * sum * unit < keep * total * supply) : b * k < a * supply := by
  refine Int.lt_of_mul_lt_mul_right (a := sum * unit) ?_ (Int.le_of_lt hunit)
  calc b * k * (sum * unit) = b * (k * sum * unit) := by ring
    _ < b * (keep * total * supply) := Int.mul_lt_mul_of_pos_left hshort hb
    _ = keep * total * b * supply := by ring
    _ ≤ a * sum * unit * supply := Int.mul_le_mul_of_nonneg_right hkeeps hsupply
    _ = a * supply * (sum * unit) := by ring

end Share

namespace Deposit

variable {d : Deposit} {p : Pool} {s s' : State} {o : Outcome} {t : Ratio}
  {amp precision d₀ d₁ share k : Int}

namespace StableMint

theorem curveAmounts_deposits (h : d.StableMint s p amp precision d₀ d₁ share)
    (hcurve : p.curve = .stableSwap amp) :
    curveAmounts p (d.amounts p) = .ok (raisedBy p precision fun c => d.amountOf c.denom) := by
  have hamounts : d.amounts p = p.assets.map fun c => d.amountOf c.denom := List.map_map
  rw [hamounts]
  exact (curveAmounts_map_eq_ok hcurve).2 ⟨h.length, precision, h.common, rfl⟩

/-- There is some of every asset, for the invariant was computed. -/
theorem amount_pos (h : d.StableMint s p amp precision d₀ d₁ share) (hp : p.Valid) :
    ∀ c ∈ p.assets, 0 < c.amount := by
  have hsum : sumOf (raisedBy p precision Coin.amount) ≠ 0 := by
    intro hzero
    have hbefore := h.before
    rw [StableSwap.invariant, StableSwap.invariantOf, if_pos hzero] at hbefore
    exact h.ne (Except.ok.inj hbefore).symm
  have hne := StableSwap.ne_zero_of_invariantOf hsum h.before
  intro c hc
  rw [← List.map_fst_zip (Nat.le_of_eq h.length)] at hc
  obtain ⟨e, he, rfl⟩ := List.mem_map.1 hc
  have hraised := hne _ (List.mem_map_of_mem he)
  have hnonneg := (hp.assets_valid _ (List.of_mem_zip he).1).2.1
  have hamount : e.1.amount ≠ 0 := by
    intro hzero
    exact hraised (by rw [hzero, Precision.raise, Int.zero_mul])
  omega

theorem sumOf_pos (h : d.StableMint s p amp precision d₀ d₁ share) (hp : p.Valid) :
    0 < sumOf (raisedBy p precision Coin.amount) := by
  have hcount := hp.asset_count.1
  refine StableSwap.sumOf_pos (List.ne_nil_of_length_pos ?_) fun x hx => ?_
  · rw [length_raisedBy h.length.symm]
    omega
  · obtain ⟨e, he, rfl⟩ := List.mem_map.1 hx
    exact Precision.raise_pos (h.amount_pos hp _ (List.of_mem_zip he).1) _ _

/-- The shares do not fall short exactly where the computed invariant grows by enough for every
number of shares that would. -/
theorem not_fallsShort_iff (h : d.StableMint s p amp precision d₀ d₁ share) (hp : p.Valid)
    (hcurve : p.curve = .stableSwap amp) (hshare : 0 < share) {deposits balances : List Int}
    (hbalances : 0 ≤ sumOf balances) :
    ¬Share.FallsShort t deposits balances (s.shareSupply p) (share + 1) ↔
      ∀ k, 0 < k → Share.FallsShort t deposits balances (s.shareSupply p) k →
        (s.shareSupply p + k) * d₀ ≤ s.shareSupply p * d₁ := by
  have hiff (k : Int) := h.lt_iff (k := k) (h.pos hp hcurve)
  constructor
  · intro hnot k hk hshort
    rw [← Int.not_lt, ← hiff]
    intro hlt
    exact hnot (hshort.mono (by omega) hbalances)
  · intro hall hshort
    have hgrown := hall (share + 1) (by omega) hshort
    rw [← Int.not_lt, ← hiff] at hgrown
    omega

/-- Where the deposit keeps to the ratio of the pool, the exact invariant grows by enough. -/
theorem exact_mul_lt (h : d.StableMint s p amp precision d₀ d₁ share) (hp : p.Valid)
    (hcurve : p.curve = .stableSwap amp) (hnonneg : ∀ c ∈ d.coins, 0 ≤ c.amount)
    (hsupply : 0 < s.shareSupply p) (hk : 0 < k)
    (hkeeps : Share.KeepsRatio t (raisedBy p precision fun c => d.amountOf c.denom)
      (raisedBy p precision Coin.amount))
    (hshort : Share.FallsShort t (raisedBy p precision fun c => d.amountOf c.denom)
      (raisedBy p precision Coin.amount) (s.shareSupply p) k) {r₀ r₁ : ℝ}
    (hr₀ : StableSwap.IsExact amp (raisedBy p precision Coin.amount) r₀)
    (hr₁ : StableSwap.IsExact amp (raisedBy p precision d.grown) r₁) :
    (s.shareSupply p + k) * r₀ < s.shareSupply p * r₁ := by
  have hreserves := h.amount_pos hp
  have hsum : 0 < sumOf (raisedBy p precision Coin.amount) * (Ratio.unit : Int) :=
    Int.mul_pos (h.sumOf_pos hp) (by decide)
  have hamount (x : Coin × Int) (hx : x ∈ p.assets.zip p.decimals) : 0 < x.1.amount :=
    hreserves _ (List.of_mem_zip hx).1
  have hgrown (x : Coin × Int) (hx : x ∈ p.assets.zip p.decimals) : 0 < d.grown x.1 :=
    Int.add_pos_of_pos_of_nonneg (hamount x hx) (amountOf_nonneg hnonneg _)
  have hgrows (x : Coin × Int) (hx : x ∈ p.assets.zip p.decimals) :
      Precision.raise x.1.amount x.2 precision * (s.shareSupply p + k) <
        Precision.raise (d.grown x.1) x.2 precision * s.shareSupply p := by
    have hpair : (Precision.raise (d.amountOf x.1.denom) x.2 precision,
        Precision.raise x.1.amount x.2 precision) ∈
          (raisedBy p precision fun c => d.amountOf c.denom).zip
            (raisedBy p precision Coin.amount) := by
      rw [raisedBy, raisedBy, List.zip_map']
      exact List.mem_map_of_mem hx
    have hclaim : Precision.raise x.1.amount x.2 precision * k <
        Precision.raise (d.amountOf x.1.denom) x.2 precision * s.shareSupply p :=
      Share.mul_lt_claim hsum (Precision.raise_pos (hamount x hx) _ _) (Int.le_of_lt hsupply)
        (hkeeps _ hpair) hshort
    rw [grown, Precision.raise_add, Int.mul_add, Int.add_mul]
    omega
  obtain ⟨c, hc⟩ : ∃ c, c ∈ p.assets.zip p.decimals := by
    refine List.exists_mem_of_length_pos ?_
    have hcount := hp.asset_count.1
    have hlength := h.length
    rw [List.length_zip]
    omega
  have hlt := StableSwap.exact_mul_lt (hp.one_le_amp hcurve)
    (show 0 < s.shareSupply p + k by omega) hsupply
    (fun x hx => Precision.raise_pos (hgrown x hx) _ _)
    (fun x hx => Precision.raise_pos (hamount x hx) _ _)
    (fun x hx => Int.le_of_lt (hgrows x hx)) ⟨c, hc, hgrows c hc⟩ hr₁ hr₀
  exact_mod_cast hlt

end StableMint

/-- A deposit that is accepted under a tolerance loses no more than that, but for one share, exactly
where the computed invariant grows by enough. The exact invariant does, if the deposit keeps to the
ratio of the pool. What the guard itself grants is a bound on the shares from the other side. -/
theorem kept_le_stable_shares_iff (hrun : d.run p s = .ok o s')
    (htolerance : d.slippageTolerance = some t) (hvalid : p.Valid)
    (hcurve : p.curve = .stableSwap amp) (hsupply : 0 < s.shareSupply p)
    (hnonneg : ∀ c ∈ d.coins, 0 ≤ c.amount) :
    t ≤ Ratio.one ∧ ∃ deposits before after d₀ d₁ share,
      curveAmounts p (d.amounts p) = .ok deposits ∧
      curveAmounts p p.balances = .ok before ∧
      StableSwap.invariant s.config.solver amp before = .ok d₀ ∧
      curveAmounts o.pool o.pool.balances = .ok after ∧
      StableSwap.invariant s.config.solver amp after = .ok d₁ ∧
      Effect.issues o.settlement.effects p.lpDenom = share ∧
      sumOf before * (Ratio.unit - t.atomics) * share ≤
        sumOf deposits * s.shareSupply p * Ratio.unit ∧
      ((Ratio.unit - t.atomics) * sumOf deposits * s.shareSupply p ≤
          (share + 1) * sumOf before * Ratio.unit ↔
        ∀ k, 0 < k → Share.FallsShort t deposits before (s.shareSupply p) k →
          (s.shareSupply p + k) * d₀ ≤ s.shareSupply p * d₁) ∧
      (Share.KeepsRatio t deposits before →
        ∀ k, 0 < k → Share.FallsShort t deposits before (s.shareSupply p) k → ∀ r₀ r₁,
          StableSwap.IsExact amp before r₀ → StableSwap.IsExact amp after r₁ →
            (s.shareSupply p + k) * r₀ < s.shareSupply p * r₁) := by
  obtain ⟨deposits, balances, share, issued, haccepted⟩ := accepted_of_run hrun
  obtain ⟨precision, d₀, d₁, hmint⟩ := haccepted.stableMint hcurve (Int.ne_of_gt hsupply)
  have hdeposits := hmint.curveAmounts_deposits hcurve
  have hbefore := hmint.curveAmounts_before hcurve
  cases haccepted.deposits_eq.symm.trans hdeposits
  cases haccepted.balances_eq.symm.trans hbefore
  have hguard := haccepted.slippage
  rw [hcurve, htolerance] at hguard
  obtain ⟨hle, hkept⟩ := Share.share_kept hguard (Int.ne_of_gt hsupply)
  refine ⟨hle, _, _, _, d₀, d₁, share, hdeposits, hbefore, hmint.before,
    hmint.curveAmounts_after hcurve haccepted.pool_eq, hmint.after,
    haccepted.issues_eq_share (Int.ne_of_gt hsupply), hkept, ?_, ?_⟩
  · rw [← hmint.not_fallsShort_iff hvalid hcurve haccepted.share_pos
      (Int.le_of_lt (hmint.sumOf_pos hvalid)), Share.FallsShort, Int.not_lt]
  · intro hkeeps k hk hshort r₀ r₁ hr₀ hr₁
    exact hmint.exact_mul_lt hvalid hcurve hnonneg hsupply hk hkeeps hshort hr₀ hr₁

/-- Two amounts under a tolerance of a tenth. -/
def underTenth (uom uusd : Int) : Deposit :=
  ⟨[⟨"uom", uom⟩, ⟨"uusd", uusd⟩], "bob", "bob", some ⟨100000000000000000⟩, none, none⟩

/-- A deposit that keeps to the ratio of an even pool but for a tenth: 1709 shares would fall short,
and the exact invariant grows by more than they are worth. -/
theorem kept_le_stable_shares_nearRatio :
    ∃ o s',
      (underTenth 1000 900).run (skewedPool 1000 1000) (.holding (skewedPool 1000 1000) 2000) =
        .ok o s' ∧ Effect.issues o.settlement.effects "factory/o.dust" = 1899 ∧
      ∀ r₀ r₁ : ℝ, StableSwap.IsExact 1 [1000, 1000] r₀ → StableSwap.IsExact 1 [2000, 1900] r₁ →
        3709 * r₀ < 2000 * r₁ := by
  obtain ⟨attributes, _, hrun⟩ : ∃ attributes s',
      (underTenth 1000 900).run (skewedPool 1000 1000) (.holding (skewedPool 1000 1000) 2000) =
        .ok ⟨skewedPool 2000 1900, [.mintShare "factory/o.dust" 1899 "bob"], attributes⟩ s' :=
    ⟨_, _, rfl⟩
  obtain ⟨-, deposits, before, after, d₀, d₁, share, hdeposits, hbefore, hd₀, hafter, hd₁, hshare,
      -, -, hexact⟩ :=
    @kept_le_stable_shares_iff (underTenth 1000 900) (skewedPool 1000 1000) _ _ _ _ 1 hrun rfl
      (by decide) rfl (by decide) (by decide)
  obtain rfl : [1000, 900] = deposits := Except.ok.inj hdeposits
  obtain rfl : [1000, 1000] = before := Except.ok.inj hbefore
  obtain rfl : [2000, 1900] = after := Except.ok.inj hafter
  refine ⟨_, _, hrun, rfl, fun r₀ r₁ hr₀ hr₁ => ?_⟩
  have hlt : ((2000 : Int) + (1709 : Int)) * r₀ < ((2000 : Int) : ℝ) * r₁ :=
    hexact (by decide) 1709 (by decide) (by decide) r₀ r₁ hr₀ hr₁
  norm_num at hlt
  exact hlt

end Deposit

namespace Chain

open Deposit

/-- All shares of the pool are those of a first deposit; then much of one asset is funded, and one
unit of the other. -/
def lopsidedRun : List Event :=
  [ .addPool (skewedPool 0 0), .fund "alice" [⟨"uom", 1000⟩, ⟨"uusd", 1000⟩],
    .execute "alice" [⟨"uom", 1000⟩, ⟨"uusd", 1000⟩] (.deposit { pool := "o.dust" }),
    .fund "bob" [⟨"uom", 100000⟩, ⟨"uusd", 1⟩] ]

/-- What was funded is deposited under a tolerance of a tenth. -/
def lopsidedDeposit : List Event :=
  [ .execute "bob" [⟨"uom", 100000⟩, ⟨"uusd", 1⟩]
      (.deposit { pool := "o.dust", slippageTolerance := some ⟨100000000000000000⟩ }) ]

/-- The deposit is accepted, and falls short; nearly twice as many shares would still do so. -/
theorem loses_by_lopsidedDeposit :
    let c := run lopsidedRun (empty {} true)
    let c' := run lopsidedDeposit c
    c.state.registry.get? "o.dust" = some (skewedPool 1000 1000) ∧
      c.state.ledger.supply "factory/o.dust" = 2000 ∧
      c'.state.registry.get? "o.dust" = some (skewedPool 101000 1001) ∧
      c'.state.ledger.balance "bob" "factory/o.dust" = 45525 ∧
      Share.FallsShort ⟨100000000000000000⟩ [100000, 1] [1000, 1000] 2000 (45525 + 1) ∧
      Share.FallsShort ⟨100000000000000000⟩ [100000, 1] [1000, 1000] 2000 90000 := by
  decide +kernel

end Chain

end MarketMaker
