import Mathlib.Data.List.Basic
import Mathlib.Tactic.Linarith
import Mathlib.Tactic.Ring
import MarketMaker.Proofs.Operation.Basic
import MarketMaker.Proofs.Rounding

/-! # What stands behind a share on the constant product curve

The product of the two balances, per squared supply, does not fall: swaps round the balance that
stays up, deposits round their shares down, and withdrawals round their payments down. -/

namespace MarketMaker

/-! ## Products per squared supply -/

/-- From product `v` and supply `t` to product `w` and supply `u` no share loses. -/
structure Accrues (v t w u : Int) : Prop where
  supply : 0 ≤ u
  grows : 0 < t → v * u ^ 2 ≤ w * t ^ 2
  /-- The first shares are worth what they stand for. -/
  begins : t = 0 → u ^ 2 ≤ w

namespace Accrues

variable {v t w u x y x' y' : Int}

theorem of_le (ht : 0 ≤ t) (hw : 0 ≤ w) (h : v ≤ w) : Accrues v t w t where
  supply := ht
  grows _ := Int.mul_le_mul_of_nonneg_right h (sq_nonneg t)
  begins hzero := by
    rw [hzero]
    exact hw

theorem of_le_left {v' : Int} (hv : v' ≤ v) (h : Accrues v t w u) : Accrues v' t w u where
  supply := h.supply
  grows ht := Int.le_trans (Int.mul_le_mul_of_nonneg_right hv (sq_nonneg u)) (h.grows ht)
  begins := h.begins

/-- No share loses if neither balance per share falls. -/
theorem of_balances (ht : 0 < t) (hu : 0 ≤ u) (hx : 0 ≤ x) (hy : 0 ≤ y) (hx' : x * u ≤ x' * t)
    (hy' : y * u ≤ y' * t) : Accrues (x * y) t (x' * y') u where
  supply := hu
  grows _ := by
    have hxu : 0 ≤ x * u := Int.mul_nonneg hx hu
    have hyu : 0 ≤ y * u := Int.mul_nonneg hy hu
    calc x * y * u ^ 2 = x * u * (y * u) := by ring
      _ ≤ x' * t * (y' * t) := Int.mul_le_mul hx' hy' hyu (Int.le_trans hxu hx')
      _ = x' * y' * t ^ 2 := by ring
  begins hzero := absurd hzero (Int.ne_of_gt ht)

/-- A supply whose square the product reaches keeps that. -/
theorem sq_le (h : Accrues v t w u) (ht : 0 ≤ t) (hv : t ^ 2 ≤ v) : u ^ 2 ≤ w := by
  by_cases hzero : t = 0
  · exact h.begins hzero
  · have hpos : 0 < t := by omega
    have hsq : 0 < t ^ 2 := pow_pos hpos 2
    have hchain : u ^ 2 * t ^ 2 ≤ w * t ^ 2 :=
      calc u ^ 2 * t ^ 2 = t ^ 2 * u ^ 2 := by ring
        _ ≤ v * u ^ 2 := Int.mul_le_mul_of_nonneg_right hv (sq_nonneg u)
        _ ≤ w * t ^ 2 := h.grows hpos
    exact Int.le_of_mul_le_mul_right hchain hsq

end Accrues

/-! ## Pools of two assets -/

namespace Coin

def product (coins : List Coin) : Int := coins.foldr (fun c rest => c.amount * rest) 1

theorem product_pair (a b : Coin) : product [a, b] = a.amount * b.amount := by
  rw [product, List.foldr_cons, List.foldr_cons, List.foldr_nil, Int.mul_one]

theorem product_of_places {coins : List Coin} (two : coins.length = 2) {i j : Nat} (hne : i ≠ j)
    {a b : Coin} (hi : coins[i]? = some a) (hj : coins[j]? = some b) :
    product coins = a.amount * b.amount := by
  obtain ⟨c, d, rfl⟩ := List.length_eq_two.1 two
  have hi₂ : i < 2 := (List.getElem?_eq_some_iff.1 hi).1
  have hj₂ : j < 2 := (List.getElem?_eq_some_iff.1 hj).1
  rw [product_pair]
  rcases Nat.lt_or_ge i 1 with hi₁ | hi₁
  · obtain rfl : i = 0 := by omega
    obtain rfl : j = 1 := by omega
    cases hi
    cases hj
    rfl
  · obtain rfl : i = 1 := by omega
    obtain rfl : j = 0 := by omega
    cases hi
    cases hj
    exact Int.mul_comm _ _

end Coin

namespace Pool

def product (p : Pool) : Int := Coin.product p.assets

/-- A pool of two assets on the constant product curve, whose shares are neither of them. -/
structure ProductPair (p : Pool) : Prop where
  two : p.assets.length = 2
  curve : p.curve = .constantProduct
  share : p.lpDenom ∉ p.denoms

theorem ProductPair.withAssets {p : Pool} (h : p.ProductPair) {assets : List Coin}
    (hr : p.Refills assets) : (p.withAssets assets).ProductPair where
  two := hr.length.trans h.two
  curve := h.curve
  share := by
    change p.lpDenom ∉ assets.map Coin.denom
    rw [hr.denoms]
    exact h.share

theorem product_nonneg {p : Pool} (h : p.ProductPair) (hp : p.Valid) : 0 ≤ p.product := by
  obtain ⟨a, b, hassets⟩ := List.length_eq_two.1 h.two
  have ha := (hp.assets_valid a (by simp [hassets])).2.1
  have hb := (hp.assets_valid b (by simp [hassets])).2.1
  rw [product, hassets, Coin.product_pair]
  exact Int.mul_nonneg ha hb

end Pool

/-! ## Swaps -/

/-- What a quote leaves of the asked balance is at least the balance on the curve. -/
theorem ConstantProduct.le_of_quote {offer ask amount : Int} {fees : FeeSchedule} {q : SwapQuote}
    (h : quote offer ask amount fees = .ok q) (hoffer : 0 < offer + amount) :
    offer * ask ≤ (offer + amount) * (ask - (q.returned + q.charges.outgoing)) := by
  simp only [quote, grossReturn, Result.bind_eq_ok, Checked.divCeil_eq_ok_iff,
    Checked.sub_eq_ok_iff, Except.ok.injEq] at h
  obtain ⟨_, ⟨_, ⟨-, rfl⟩, _, ⟨hle, rfl⟩, _, -, rfl⟩, hnet⟩ := h
  have hgross : 0 ≤ ask - Checked.ceilQuotient (offer * ask) (offer + amount) := by omega
  have hpaid := GrossReturn.paid_le_of_net hnet hgross
  have hkept : Checked.ceilQuotient (offer * ask) (offer + amount) ≤
      ask - (q.returned + q.charges.outgoing) := by
    dsimp only at hpaid
    omega
  calc offer * ask
      ≤ Checked.ceilQuotient (offer * ask) (offer + amount) * (offer + amount) :=
        Checked.le_ceilQuotient_mul _ hoffer
    _ = (offer + amount) * Checked.ceilQuotient (offer * ask) (offer + amount) := Int.mul_comm _ _
    _ ≤ (offer + amount) * (ask - (q.returned + q.charges.outgoing)) :=
        Int.mul_le_mul_of_nonneg_left hkept (Int.le_of_lt hoffer)

namespace SwapOrder.Fills

variable {order : SwapOrder} {s : State} {call : Call} {offer : Coin} {pool : Pool}
  {sides : AssetPair} {q : SwapQuote} {o : Outcome}

theorem product_le (h : order.Fills s call offer pool sides q o) (hpool : pool.Valid)
    (hpair : pool.ProductPair) (hoffer : 0 ≤ offer.amount) : pool.product ≤ o.pool.product := by
  have hbefore : pool.product = sides.offer * sides.ask :=
    Coin.product_of_places hpair.two h.pairs.index_ne h.pairs.offer h.pairs.ask
  have htwo : (filledAssets pool sides offer order.askDenom q).length = 2 := by
    rw [filledAssets, List.length_set, List.length_set]
    exact hpair.two
  have hafter : o.pool.product = (sides.offer + offer.amount) *
      (sides.ask - (q.returned + q.charges.outgoing)) := by
    rw [h.pool_eq]
    exact Coin.product_of_places htwo h.pairs.index_ne h.offer_filled h.ask_filled
  have hside := (hpool.assets_valid _ h.pairs.offer_mem).2.1
  have hquote := h.quoted
  rw [hpair.curve] at hquote
  have hne := h.offer_ne
  rw [hbefore, hafter]
  exact ConstantProduct.le_of_quote hquote (by dsimp only at hside; omega)

end SwapOrder.Fills

/-! ## Deposits -/

/-- The shares of a deposit are what the scarcer of its assets claims. -/
theorem Share.constantProduct_eq_min {a b x y supply share : Int}
    (h : constantProduct [a, b] [x, y] supply = .ok share) :
    x ≠ 0 ∧ y ≠ 0 ∧ 0 ≤ share ∧ share = min ((a * supply).fdiv x) ((b * supply).fdiv y) := by
  simp only [constantProduct, List.length_cons, List.length_nil, ne_eq, not_true_eq_false,
    ite_false, Result.bind_eq_ok, List.zip_cons_cons, List.zip_nil_right,
    Result.mapM_cons_eq_ok, Result.mapM_nil_eq_ok, Checked.mulDiv_eq_ok_iff] at h
  obtain ⟨_, ⟨_, _, ⟨hx, rfl⟩, ⟨_, _, ⟨hy, rfl⟩, rfl, rfl⟩, rfl⟩, hshare⟩ := h
  simp only [smallest?, List.foldl_cons, List.foldl_nil] at hshare
  obtain ⟨hnonneg, -, rfl⟩ := Checked.narrow_eq_ok_iff.1 hshare
  exact ⟨hx, hy, hnonneg, rfl⟩

/-- The supply that a first deposit makes is a root of its product. -/
theorem Share.sq_le_of_initial {solver : Solver} {a b share : Int}
    (h : initial solver [a, b] .constantProduct = .ok share) :
    0 ≤ share ∧ (share + minimumLiquidity) ^ 2 ≤ a * b := by
  simp only [initial, firstSupply, Result.bind_eq_ok, Result.guarded_eq_ok,
    Checked.sqrt_eq_ok_iff, Checked.narrow_eq_ok_iff] at h
  obtain ⟨root, ⟨-, -, hle, -⟩, -, hnonneg, -, rfl⟩ := h
  refine ⟨hnonneg, ?_⟩
  rw [Int.sub_add_cancel, sq]
  exact hle

namespace Deposit.Accepted

variable {d : Deposit} {s : State} {pool : Pool} {deposits balances : List Int} {share : Int}
  {issued : List Effect} {o : Outcome}

/-- The amounts that the shares of a deposit into a pool of two are computed from. -/
theorem terms_of_pair (h : d.Accepted s pool deposits balances share issued o)
    (hcurve : pool.curve = .constantProduct) {x y : Coin} (hassets : pool.assets = [x, y]) :
    deposits = [d.amountOf x.denom, d.amountOf y.denom] ∧ balances = [x.amount, y.amount] := by
  have hdeposits := h.deposits_eq
  have hbalances := h.balances_eq
  rw [curveAmounts, hcurve, amounts, Pool.denoms, hassets] at hdeposits
  rw [curveAmounts, hcurve, Pool.balances, hassets] at hbalances
  exact ⟨(Except.ok.inj hdeposits).symm, (Except.ok.inj hbalances).symm⟩

/-- The shares of a later deposit, where the pool holds some of both assets. -/
theorem share_eq_min (h : d.Accepted s pool deposits balances share issued o)
    (hcurve : pool.curve = .constantProduct) {x y : Coin} (hassets : pool.assets = [x, y])
    (hsupply : s.shareSupply pool ≠ 0) :
    x.amount ≠ 0 ∧ y.amount ≠ 0 ∧ 0 ≤ share ∧
      share = min ((d.amountOf x.denom * s.shareSupply pool).fdiv x.amount)
        ((d.amountOf y.denom * s.shareSupply pool).fdiv y.amount) := by
  obtain ⟨hdeposits, hbalances⟩ := h.terms_of_pair hcurve hassets
  have hshare := (share_eq_ok h.share_eq).2
  rw [if_neg hsupply, hdeposits, hbalances, hcurve] at hshare
  exact Share.constantProduct_eq_min hshare

/-- No asset claims less than the shares of a later deposit. -/
theorem share_mul_le (h : d.Accepted s pool deposits balances share issued o) (hpool : pool.Valid)
    (hcurve : pool.curve = .constantProduct) (htwo : pool.assets.length = 2)
    (hsupply : s.shareSupply pool ≠ 0) :
    ∀ c ∈ pool.assets, share * c.amount ≤ d.amountOf c.denom * s.shareSupply pool := by
  obtain ⟨x, y, hassets⟩ := List.length_eq_two.1 htwo
  obtain ⟨hxne, hyne, -, hshare⟩ := h.share_eq_min hcurve hassets hsupply
  have hx := (hpool.assets_valid x (by simp [hassets])).2.1
  have hy := (hpool.assets_valid y (by simp [hassets])).2.1
  intro c hc
  simp only [hassets, List.mem_cons, List.not_mem_nil, or_false] at hc
  rcases hc with rfl | rfl
  · exact (le_fdiv_iff (by omega)).1 (hshare ▸ Int.min_le_left _ _)
  · exact (le_fdiv_iff (by omega)).1 (hshare ▸ Int.min_le_right _ _)

theorem accrues (h : d.Accepted s pool deposits balances share issued o) (hpool : pool.Valid)
    (hpair : pool.ProductPair) (hnonneg : ∀ c ∈ d.coins, 0 ≤ c.amount)
    (hsupply : 0 ≤ s.shareSupply pool) :
    Accrues pool.product (s.shareSupply pool) o.pool.product
      (s.shareSupply pool + Effect.issues o.settlement.effects pool.lpDenom) := by
  obtain ⟨x, y, hassets⟩ := List.length_eq_two.1 hpair.two
  have hx := (hpool.assets_valid x (by simp [hassets])).2.1
  have hy := (hpool.assets_valid y (by simp [hassets])).2.1
  have ha := amountOf_nonneg hnonneg x.denom
  have hb := amountOf_nonneg hnonneg y.denom
  have hproduct : pool.product = x.amount * y.amount := by
    rw [Pool.product, hassets, Coin.product_pair]
  have hproduct' : o.pool.product =
      (x.amount + d.amountOf x.denom) * (y.amount + d.amountOf y.denom) := by
    rw [h.pool_eq, Pool.product, Pool.withAssets, grownAssets, hassets, List.map_cons,
      List.map_cons, List.map_nil, Coin.product_pair]
  rw [hproduct, hproduct']
  by_cases hzero : s.shareSupply pool = 0
  · -- The first deposit: its root is the whole supply.
    have hshare := (share_eq_ok h.share_eq).2
    rw [if_pos hzero, (h.terms_of_pair hpair.curve hassets).1, hpair.curve] at hshare
    obtain ⟨hpositive, hsq⟩ := Share.sq_le_of_initial hshare
    rw [h.issues_eq, if_pos rfl, if_pos hzero, hzero, Int.zero_add]
    refine ⟨?_, fun hpos => absurd hpos (Int.lt_irrefl 0), fun _ => ?_⟩
    · exact Int.add_nonneg hpositive (by decide)
    · have hgrown : d.amountOf x.denom * d.amountOf y.denom ≤
          (x.amount + d.amountOf x.denom) * (y.amount + d.amountOf y.denom) :=
        Int.mul_le_mul (by omega) (by omega) hb (by omega)
      exact Int.le_trans hsq hgrown
  · have hpositive := h.share_pos
    have hclaims := h.share_mul_le hpool hpair.curve hpair.two hzero
    have hxshare := hclaims x (by simp [hassets])
    have hyshare := hclaims y (by simp [hassets])
    rw [h.issues_eq_share hzero]
    refine .of_balances (by omega) (by omega) hx hy ?_ ?_
    · linarith
    · linarith

end Deposit.Accepted

/-! ## Withdrawals -/

namespace Withdrawal.Paid

variable {identifier : String} {s : State} {call : Call} {pool : Pool} {amount : Int} {o : Outcome}

theorem accrues (h : Paid identifier s call pool amount o) (hpool : pool.Valid)
    (hpair : pool.ProductPair) (hamount : 0 < amount) :
    Accrues pool.product (s.shareSupply pool) o.pool.product
      (s.shareSupply pool + Effect.issues o.settlement.effects pool.lpDenom) := by
  obtain ⟨x, y, hassets⟩ := List.length_eq_two.1 hpair.two
  have hx := (hpool.assets_valid x (by simp [hassets])).2.1
  have hy := (hpool.assets_valid y (by simp [hassets])).2.1
  have hle := h.amount_le
  have hpos : 0 < s.shareSupply pool := by omega
  have hproduct : pool.product = x.amount * y.amount := by
    rw [Pool.product, hassets, Coin.product_pair]
  have hproduct' : o.pool.product =
      (x.amount - (x.amount * amount).fdiv (s.shareSupply pool)) *
        (y.amount - (y.amount * amount).fdiv (s.shareSupply pool)) := by
    rw [h.pool_eq, Pool.product, Pool.withAssets, hassets, List.map_cons, List.map_cons,
      List.map_nil, Coin.product_pair, kept, kept]
  have hpaidx := fdiv_mul_le (x.amount * amount) hpos
  have hpaidy := fdiv_mul_le (y.amount * amount) hpos
  rw [h.issues_eq, if_pos rfl, hproduct, hproduct']
  refine .of_balances hpos (by omega) hx hy ?_ ?_
  · linarith
  · linarith

end Withdrawal.Paid

end MarketMaker
