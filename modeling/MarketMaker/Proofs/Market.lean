import MarketMaker.Proofs.Reading
import MarketMaker.Proofs.Reserve
import MarketMaker.Proofs.StableSwap.Price

/-! # Quotes stay within the reserves

On either curve, what a quote pays and charges is taken from the asked reserve, which is an amount
of 128 bits. The spread is not: it is what the offer is worth above that. Only the guard of a swap
keeps it below the return. -/

namespace MarketMaker

/-! ## The spread guard -/

namespace Spread

theorem limit_le (given : Option Ratio) : (limit given).atomics ≤ maxLimit.atomics := by
  unfold limit Ratio.min
  split
  · exact Nat.le_refl _
  · rename_i h
    exact Nat.not_lt.1 h

/-- Without a belief price, a spread that is allowed is at most the return. -/
theorem le_returned_of_check {given : Option Ratio} {offer returned spread : Int} {u : Unit}
    (h : check none given offer returned spread = .ok u) (hreturned : 0 ≤ returned)
    (hspread : 0 ≤ spread) : spread ≤ returned := by
  obtain ⟨hallowed, -⟩ := Result.guarded_eq_ok.1 h
  have hlimit : ((limit given).atomics : Int) ≤ maxLimit.atomics := by
    exact_mod_cast limit_le given
  have hhalf : spread * Ratio.unit ≤ maxLimit.atomics * (returned + spread) :=
    Int.le_trans (Int.not_lt.1 hallowed) (Int.mul_le_mul_of_nonneg_right hlimit (by omega))
  simp only [Ratio.unit, maxLimit, Nat.cast_ofNat] at hhalf
  omega

end Spread

/-! ## The two curves -/

theorem ConstantProduct.bounds_of_grossReturn {offer ask amount : Int} {gross : GrossReturn}
    (h : grossReturn offer ask amount = .ok gross) (hoffer : 0 ≤ offer) (hask : 0 ≤ ask)
    (hamount : 0 ≤ amount) :
    offer ≠ 0 ∧ 0 ≤ gross.spread ∧ gross.amount ≤ ask := by
  simp only [grossReturn, Result.bind_eq_ok, Checked.divCeil_eq_ok_iff, Checked.sub_eq_ok_iff,
    Checked.mulDiv_eq_ok_iff, Except.ok.injEq] at h
  obtain ⟨remaining, ⟨hne, rfl⟩, _, ⟨hle, rfl⟩, _, ⟨hoffered, rfl⟩, rfl⟩ := h
  have htotal : 0 < offer + amount := by omega
  have hremaining := Checked.ceilQuotient_nonneg htotal (Int.mul_nonneg hoffer hask)
  exact ⟨hoffered, Int.le_max_left _ _, by dsimp only; omega⟩

namespace StableSwap.Side

open Precision

variable {solver : Solver} {s : Side} {amount : Int} {gross : GrossReturn}

theorem offer_ne_of_grossReturn (h : grossReturn solver s amount = .ok gross)
    (hoffer : 0 ≤ s.offer) (hask : 0 < s.ask) : s.offer ≠ 0 := by
  simp only [grossReturn, Result.bind_eq_ok] at h
  obtain ⟨y, hy, -⟩ := h
  obtain ⟨k, hk⟩ := exists_solve hy
  have hofferRaised : 0 ≤ s.offerRaised := raise_nonneg hoffer _ _
  have haskRaised : 0 < s.askRaised := raise_pos hask _ _
  have hsum : sumOf [s.offerRaised, s.askRaised] ≠ 0 := by
    simp only [sumOf]
    omega
  have hne := ne_zero_of_invariantOf hsum hk.invariant s.offerRaised List.mem_cons_self
  intro hzero
  exact hne (by rw [offerRaised, raise, hzero, Int.zero_mul])

theorem bounds_of_grossReturn (h : grossReturn solver s amount = .ok gross) (hn : 2 ≤ s.n)
    (hamp : 1 ≤ s.amp) (hoffer : 0 ≤ s.offer) (hask : 0 ≤ s.ask) (hamount : 0 ≤ amount) :
    0 ≤ gross.spread ∧ gross.amount ≤ s.ask := by
  simp only [grossReturn, Result.bind_eq_ok, Except.ok.injEq] at h
  obtain ⟨y, hy, rfl⟩ := h
  refine ⟨Int.le_max_left _ _, ?_⟩
  obtain ⟨k, hk⟩ := exists_solve hy
  have hofferRaised : 0 ≤ s.offerRaised := raise_nonneg hoffer _ _
  have haskRaised : 0 ≤ s.askRaised := raise_nonneg hask _ _
  have hraised : 0 ≤ raise amount s.offerDecimals s.precision := raise_nonneg hamount _ _
  have hx : s.offerRaised + raise amount s.offerDecimals s.precision = k.x :=
    Except.ok.inj hk.moved
  have hsigns := hk.nonneg hn hamp hofferRaised haskRaised (by omega)
  have hynonneg : 0 ≤ y := balanceStep_nonneg hsigns.c hk.step
  have hpaid : Checked.subFloor s.askRaised (y + 1) ≤ s.askRaised := by
    rw [Checked.subFloor]
    omega
  exact lower_le_of_le_raise hpaid

end StableSwap.Side

/-! ## Offers

On either curve an offer is quoted for the gross amount of the return. -/

/-- An offer for a return of `net` after fees, out of a reserve of the asked asset. -/
structure OfferQuote.Buys (b : OfferQuote) (fees : FeeSchedule) (net reserve : Int) : Prop where
  gross : ∃ gross,
    grossAmount fees net = .ok gross ∧ gross ≤ reserve ∧ b.charges = fees.charge gross
  offer : 0 ≤ b.offer ∧ b.offer ≤ maxAmount
  spread : 0 ≤ b.spread

theorem ConstantProduct.buys_of_quoteOffer {offer ask amount : Int} {fees : FeeSchedule}
    {b : OfferQuote} (h : quoteOffer offer ask amount fees = .ok b) : b.Buys fees amount ask := by
  simp only [quoteOffer, offerFor, Result.bind_eq_ok, Checked.sub_eq_ok_iff,
    Checked.narrow_eq_ok_iff, Except.ok.injEq] at h
  obtain ⟨gross, hgross, _, ⟨_, ⟨hle, -⟩, -⟩, _, -, _, ⟨hnonneg, hmax, rfl⟩, rfl⟩ := h
  exact ⟨⟨gross, hgross, hle, rfl⟩, ⟨hnonneg, hmax⟩, Int.le_max_left _ _⟩

theorem StableSwap.Side.buys_of_quoteOffer {solver : Solver} {s : Side} {amount : Int}
    {fees : FeeSchedule} {b : OfferQuote} (h : quoteOffer solver s amount fees = .ok b) :
    b.Buys fees amount s.ask := by
  simp only [quoteOffer, Result.bind_eq_ok, Checked.narrow_eq_ok_iff, Except.ok.injEq] at h
  obtain ⟨gross, hgross, y, hy, _, -, _, ⟨hnonneg, hmax, rfl⟩, rfl⟩ := h
  obtain ⟨k, hk⟩ := exists_solve hy
  obtain ⟨hleft, -⟩ := Result.guarded_eq_ok.1 hk.moved
  have hle : gross ≤ s.ask := by
    by_contra hlt
    exact hleft (Precision.raise_le_raise (Int.le_of_lt (Int.not_le.1 hlt)) _ _)
  exact ⟨⟨gross, hgross, hle, rfl⟩, ⟨hnonneg, hmax⟩, Int.le_max_left _ _⟩

theorem Market.buys_of_quoteOffer {m : Market} {solver : Solver} {amount : Int} {curve : Curve}
    {b : OfferQuote} (h : m.quoteOffer solver amount curve = .ok b) :
    b.Buys m.fees amount m.ask := by
  cases curve with
  | constantProduct => exact ConstantProduct.buys_of_quoteOffer h
  | stableSwap amp => exact StableSwap.Side.buys_of_quoteOffer h

/-- Charges whose sum fits are of 128 bits each. -/
theorem Charges.Nonneg.fits {c : Charges} (h : c.Nonneg) (hle : c.total ≤ maxAmount) : c.Fits := by
  obtain ⟨hswap, hprotocol, hburn, hextra⟩ := h
  rw [Charges.total] at hle
  exact ⟨⟨hswap, by omega⟩, ⟨hprotocol, by omega⟩, ⟨hburn, by omega⟩, ⟨hextra, by omega⟩⟩

theorem OfferQuote.Buys.charges_fit {b : OfferQuote} {fees : FeeSchedule} {net reserve : Int}
    (h : b.Buys fees net reserve) (hnet : 0 ≤ net) (hreserve : reserve ≤ maxAmount) :
    b.charges.Fits := by
  obtain ⟨gross, hgross, hle, hcharges⟩ := h.gross
  have hcovers := grossAmount_covers hgross (Int.le_refl gross)
  have hcharged := fees.charge_nonneg (grossAmount_nonneg hgross hnet)
  rw [hcharges]
  exact hcharged.fits (by omega)

/-! ## Markets -/

/-- A market of a valid pool. -/
structure Market.Valid (m : Market) (curve : Curve) : Prop where
  count : 2 ≤ m.n
  curve : curve.Valid
  offer : 0 ≤ m.offer
  ask : m.ask ≤ maxAmount

theorem Pool.Valid.market {p : Pool} (h : p.Valid) {offer ask : String} {sides : AssetPair}
    (hsides : p.Pairs offer ask sides) : (p.market sides).Valid p.curve where
  count := by
    have hcount := h.asset_count.1
    simp only [Pool.market]
    omega
  curve := h.curve_valid
  offer := (h.assets_valid _ hsides.offer_mem).2.1
  ask := (h.assets_valid _ hsides.ask_mem).2.2

namespace Market.Valid

variable {m : Market} {solver : Solver} {amount : Int} {curve : Curve} {q : SwapQuote}

/-- A market that has some of the asked asset and quotes has some of the offered one. -/
theorem offer_pos (hm : m.Valid curve) (h : m.quote solver amount curve = .ok q)
    (hask : 0 < m.ask) (hamount : 0 ≤ amount) : 0 < m.offer := by
  refine lt_of_le_of_ne hm.offer (Ne.symm ?_)
  cases curve with
  | constantProduct =>
      obtain ⟨gross, hgross, -⟩ := Result.bind_eq_ok.1 h
      exact (ConstantProduct.bounds_of_grossReturn hgross hm.offer (Int.le_of_lt hask) hamount).1
  | stableSwap amp =>
      obtain ⟨gross, hgross, -⟩ := Result.bind_eq_ok.1 h
      exact StableSwap.Side.offer_ne_of_grossReturn hgross hm.offer hask

theorem bounds_of_gross (hm : m.Valid curve) (h : m.quote solver amount curve = .ok q)
    (hask : 0 ≤ m.ask) (hamount : 0 ≤ amount) :
    ∃ gross : GrossReturn, gross.net m.fees = .ok q ∧ 0 ≤ gross.spread ∧ gross.amount ≤ m.ask := by
  cases curve with
  | constantProduct =>
      obtain ⟨gross, hgross, hnet⟩ := Result.bind_eq_ok.1 h
      obtain ⟨-, hspread, hle⟩ :=
        ConstantProduct.bounds_of_grossReturn hgross hm.offer hask hamount
      exact ⟨gross, hnet, hspread, hle⟩
  | stableSwap amp =>
      obtain ⟨gross, hgross, hnet⟩ := Result.bind_eq_ok.1 h
      obtain ⟨hspread, hle⟩ :=
        StableSwap.Side.bounds_of_grossReturn hgross hm.count hm.curve.1 hm.offer hask hamount
      exact ⟨gross, hnet, hspread, hle⟩

/-- What is quoted for an offer is taken from the asked reserve. -/
theorem within_reserve (hm : m.Valid curve) (h : m.quote solver amount curve = .ok q)
    (hask : 0 ≤ m.ask) (hamount : 0 ≤ amount) :
    0 ≤ q.spread ∧ q.returned + q.charges.total ≤ m.ask := by
  obtain ⟨gross, hnet, hnonneg, hle⟩ := hm.bounds_of_gross h hask hamount
  obtain ⟨-, -, -, hreturned, hspread⟩ := GrossReturn.net_eq_ok_iff.1 hnet
  exact ⟨by omega, by omega⟩

theorem charges_fit (hm : m.Valid curve) (h : m.quote solver amount curve = .ok q)
    (hask : 0 ≤ m.ask) (hamount : 0 ≤ amount) : q.charges.Fits := by
  obtain ⟨-, hle⟩ := hm.within_reserve h hask hamount
  obtain ⟨hreturned, -, hcharges⟩ := sound_of_quote h
  have hmax := hm.ask
  exact hcharges.fits (by omega)

end Market.Valid

end MarketMaker
