import MarketMaker.Proofs.Liquidity.Series
import MarketMaker.Proofs.Operation.Worth

/-! # What a slippage tolerance grants

The guard compares the cross ratios of a deposit and the pool, and the shares are what the scarcer
asset claims. Together they bound what the depositor loses on the other asset. -/

namespace MarketMaker

namespace Share

/-- A deposit that is guarded and let through passes the check of what its tolerance keeps. -/
theorem exists_keep {t : Ratio} {terms : DepositTerms} {curve : Curve}
    (h : checkSlippage (some t) terms curve = .ok ()) (hsupply : terms.supply ≠ 0) :
    ∃ keep : Ratio, t.atomics + keep.atomics = Ratio.unit ∧
      checkKept keep terms curve = .ok () := by
  simp only [checkSlippage, keep?, if_neg hsupply, Result.bind_eq_ok, Result.guarded_eq_ok,
    Result.map_eq_ok, Ratio.complement_eq_ok_iff] at h
  obtain ⟨_, ⟨-, keep, hkeep, rfl⟩, hchecked⟩ := h
  exact ⟨keep, hkeep, hchecked⟩

/-- What the guard lets through on the constant product curve: with the part that the tolerance
keeps, neither cross ratio is exceeded. -/
theorem cross_ratios_kept {t : Ratio} {d₀ d₁ p₀ p₁ share supply : Int}
    (h : checkSlippage (some t) ⟨[d₀, d₁], [p₀, p₁], share, supply⟩ .constantProduct = .ok ())
    (hsupply : supply ≠ 0) :
    ∃ keep : Ratio, t.atomics + keep.atomics = Ratio.unit ∧
      ¬CrossRatioExceeded keep d₀ d₁ p₀ p₁ := by
  obtain ⟨keep, hkeep, hchecked⟩ := exists_keep h hsupply
  simp only [checkKept, Result.guarded_eq_ok] at hchecked
  exact ⟨keep, hkeep, hchecked.1⟩

/-- One share more than the scarcer of two assets claims is worth more than what is kept of the
first: of the first itself, or of the second, which is not much scarcer. -/
theorem kept_lt_of_min {keep unit a b x y supply share : Int} (hx : 0 < x) (hy : 0 < y)
    (ha : 0 ≤ a) (hsupply : 0 ≤ supply) (hunit : 0 < unit) (hkeep : keep ≤ unit)
    (hshare : share = min ((a * supply).fdiv x) ((b * supply).fdiv y))
    (hcross : a * keep * y ≤ x * b * unit) :
    keep * a * supply < (share + 1) * x * unit := by
  rcases Int.le_total ((a * supply).fdiv x) ((b * supply).fdiv y) with hle | hle
  · rw [Int.min_eq_left hle] at hshare
    have hown : a * supply < (share + 1) * x := (fdiv_lt_iff hx).1 (by omega)
    calc keep * a * supply = keep * (a * supply) := Int.mul_assoc _ _ _
      _ ≤ unit * (a * supply) :=
          Int.mul_le_mul_of_nonneg_right hkeep (Int.mul_nonneg ha hsupply)
      _ < unit * ((share + 1) * x) := Int.mul_lt_mul_of_pos_left hown hunit
      _ = (share + 1) * x * unit := Int.mul_comm _ _
  · rw [Int.min_eq_right hle] at hshare
    have hother : b * supply < (share + 1) * y := (fdiv_lt_iff hy).1 (by omega)
    refine Int.lt_of_mul_lt_mul_right (a := y) ?_ (Int.le_of_lt hy)
    calc keep * a * supply * y = a * keep * y * supply := by ring
      _ ≤ x * b * unit * supply := Int.mul_le_mul_of_nonneg_right hcross hsupply
      _ = x * unit * (b * supply) := by ring
      _ < x * unit * ((share + 1) * y) :=
          Int.mul_lt_mul_of_pos_left hother (Int.mul_pos hx hunit)
      _ = (share + 1) * x * unit * y := by ring

end Share

namespace Deposit

variable {d : Deposit} {s s' : State} {p : Pool} {o : Outcome} {t : Ratio}

namespace Accepted

variable {deposits balances : List Int} {share : Int} {issued : List Effect}

theorem kept_lt_shares (h : d.Accepted s p deposits balances share issued o)
    (htolerance : d.slippageTolerance = some t) (hp : p.Valid) (htwo : p.assets.length = 2)
    (hcurve : p.curve = .constantProduct) (hsupply : 0 < s.shareSupply p)
    (hnonneg : ∀ c ∈ d.coins, 0 ≤ c.amount) :
    t ≤ Ratio.one ∧ ∀ c ∈ p.assets,
      (Ratio.unit - t.atomics) * d.amountOf c.denom * s.shareSupply p <
        (share + 1) * c.amount * Ratio.unit := by
  obtain ⟨x, y, hassets⟩ := List.length_eq_two.1 htwo
  obtain ⟨hdeposits, hbalances⟩ := h.terms_of_pair hcurve hassets
  obtain ⟨hxne, hyne, -, hshare⟩ := h.share_eq_min hcurve hassets (Int.ne_of_gt hsupply)
  have hguard := h.slippage
  rw [hdeposits, hbalances, hcurve, htolerance] at hguard
  obtain ⟨keep, hkeep, hkept⟩ := Share.cross_ratios_kept hguard (Int.ne_of_gt hsupply)
  simp only [Share.CrossRatioExceeded, not_or, Int.not_lt] at hkept
  have hx := (hp.assets_valid x (by simp [hassets])).2.1
  have hy := (hp.assets_valid y (by simp [hassets])).2.1
  have ha := amountOf_nonneg hnonneg x.denom
  have hb := amountOf_nonneg hnonneg y.denom
  have hunit : (0 : Int) < Ratio.unit := by decide
  have hpart : (Ratio.unit - t.atomics : Int) = keep.atomics := by omega
  refine ⟨Ratio.le_def.2 ?_, ?_⟩
  · change t.atomics ≤ Ratio.unit
    omega
  · intro c hc
    rw [hpart]
    simp only [hassets, List.mem_cons, List.not_mem_nil, or_false] at hc
    rcases hc with rfl | rfl
    · exact Share.kept_lt_of_min (by omega) (by omega) ha (Int.le_of_lt hsupply) hunit (by omega)
        hshare hkept.1
    · exact Share.kept_lt_of_min (by omega) (by omega) hb (Int.le_of_lt hsupply) hunit (by omega)
        (hshare.trans (Int.min_comm _ _)) hkept.2

end Accepted

/-- A deposit that is accepted under a tolerance loses no more than that, but for one share: with it
the shares are worth more than what the tolerance keeps of either asset. -/
theorem kept_lt_shares_worth (hrun : d.run p s = .ok o s')
    (htolerance : d.slippageTolerance = some t) (hvalid : p.Valid) (htwo : p.assets.length = 2)
    (hcurve : p.curve = .constantProduct) (hsupply : 0 < s.shareSupply p)
    (hnonneg : ∀ c ∈ d.coins, 0 ≤ c.amount) :
    t ≤ Ratio.one ∧ ∃ share, Effect.issues o.settlement.effects p.lpDenom = share ∧
      share ≤ Effect.gains o.settlement.effects (d.holder s.config) p.lpDenom ∧
      ∀ c ∈ p.assets, (Ratio.unit - t.atomics) * d.amountOf c.denom * s.shareSupply p <
        (share + 1) * c.amount * Ratio.unit := by
  obtain ⟨_, _, share, _, haccepted⟩ := accepted_of_run hrun
  obtain ⟨hle, hkept⟩ :=
    haccepted.kept_lt_shares htolerance hvalid htwo hcurve hsupply hnonneg
  have hgains := haccepted.single_le_gains (d.holder s.config) p.lpDenom
  rw [Ledger.single_self, Coin.total_singleton, if_pos rfl] at hgains
  exact ⟨hle, share, haccepted.issues_eq_share (Int.ne_of_gt hsupply), hgains, hkept⟩

def unevenPool : Pool where
  identifier := "o.uneven"
  assets := [⟨"uom", 1000⟩, ⟨"uusd", 4000⟩]
  curve := .constantProduct
  lpDenom := "factory/o.uneven"
  fees := {}
  decimals := [6, 6]

/-- More of one asset than the pool's ratio asks for, under a tolerance of a quarter. -/
def tolerant : Deposit where
  coins := [⟨"uom", 100⟩, ⟨"uusd", 500⟩]
  sender := "alice"
  receiver := "alice"
  slippageTolerance := some ⟨250000000000000000⟩
  unlockingDuration := none
  lockIdentifier := none

theorem kept_lt_shares_worth_uneven :
    ∃ o s', tolerant.run unevenPool (.holding unevenPool 2000) = .ok o s' ∧
      Effect.issues o.settlement.effects "factory/o.uneven" = 200 ∧
      (750000000000000000 : Int) * 100 * 2000 < 201 * 1000 * 1000000000000000000 ∧
      (750000000000000000 : Int) * 500 * 2000 < 201 * 4000 * 1000000000000000000 := by
  obtain ⟨attributes, _, hrun⟩ : ∃ attributes s',
      tolerant.run unevenPool (.holding unevenPool 2000) =
        .ok ⟨unevenPool.withAssets [⟨"uom", 1100⟩, ⟨"uusd", 4500⟩],
          [.mintShare "factory/o.uneven" 200 "alice"], attributes⟩ s' := ⟨_, _, rfl⟩
  obtain ⟨-, share, hshare, -, hkept⟩ := @kept_lt_shares_worth tolerant _ _ unevenPool _ _ hrun rfl
    (by decide) rfl rfl (by decide) (by decide)
  obtain rfl : 200 = share := hshare
  exact ⟨_, _, hrun, rfl, hkept ⟨"uom", 1000⟩ (by decide), hkept ⟨"uusd", 4000⟩ (by decide)⟩

end Deposit

end MarketMaker
