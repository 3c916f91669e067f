import Mathlib.Tactic.Ring
import MarketMaker.Proofs.Quote

/-! # Exact prices on the constant product curve

The rest of a reserve is rounded up, and so is the offer for a return. Neither loses anything: a
return is the exact one rounded down, and an offer is the least one that brings the return it is
quoted for. -/

namespace MarketMaker

namespace ConstantProduct

variable {offer ask amount gross needed : Int}

/-! ## Returns -/

/-- What is left of a reserve is rounded up, so that the return is rounded down. -/
theorem sub_ceilQuotient_eq (h : 0 < offer + amount) :
    ask - Checked.ceilQuotient (offer * ask) (offer + amount) =
      (ask * amount).fdiv (offer + amount) := by
  have hsplit : -(offer * ask) = ask * amount - ask * (offer + amount) := by ring
  rw [Checked.ceilQuotient, hsplit, Int.sub_mul_fdiv_right _ _ (Int.ne_of_gt h)]
  omega

/-- A pool that has some of the offered asset prices every offer, at most at the price of its
balances. -/
theorem exists_grossReturn (hoffer : 0 < offer) (hask : 0 ≤ ask) (hamount : 0 ≤ amount) :
    ∃ r, grossReturn offer ask amount = .ok r ∧
      r.amount = (ask * amount).fdiv (offer + amount) ∧ 0 ≤ r.amount ∧
      r.amount + r.spread = (amount * ask).fdiv offer ∧ 0 ≤ r.spread := by
  have htotal : 0 < offer + amount := by omega
  have hreturned : ask - Checked.ceilQuotient (offer * ask) (offer + amount) =
      (ask * amount).fdiv (offer + amount) := sub_ceilQuotient_eq htotal
  have hnonneg : 0 ≤ (ask * amount).fdiv (offer + amount) :=
    Int.fdiv_nonneg (Int.mul_nonneg hask hamount) (Int.le_of_lt htotal)
  have hworth : (ask * amount).fdiv (offer + amount) ≤ (amount * ask).fdiv offer := by
    rw [le_fdiv_iff hoffer]
    calc (ask * amount).fdiv (offer + amount) * offer
        ≤ (ask * amount).fdiv (offer + amount) * (offer + amount) :=
          Int.mul_le_mul_of_nonneg_left (by omega) hnonneg
      _ ≤ ask * amount := fdiv_mul_le _ htotal
      _ = amount * ask := Int.mul_comm _ _
  generalize (ask * amount).fdiv (offer + amount) = returned at *
  refine ⟨⟨returned, (amount * ask).fdiv offer - returned⟩, ?_, rfl, hnonneg, ?_, ?_⟩
  · simp only [grossReturn, Result.bind_eq_ok, Checked.divCeil_eq_ok_iff, Checked.sub_eq_ok_iff,
      Checked.mulDiv_eq_ok_iff, Except.ok.injEq]
    refine ⟨_, ⟨by omega, rfl⟩, _, ⟨by omega, hreturned.symm⟩, _, ⟨by omega, rfl⟩, ?_⟩
    rw [Checked.subFloor, max_eq_right (Int.sub_nonneg_of_le hworth)]
  · dsimp only
    omega
  · exact Int.sub_nonneg_of_le hworth

theorem returned_lt (hoffer : 0 < offer) (hask : 0 < ask) (hamount : 0 ≤ amount) :
    (ask * amount).fdiv (offer + amount) < ask := by
  rw [fdiv_lt_iff (by omega)]
  exact Int.mul_lt_mul_of_pos_left (by omega) hask

/-- Without any of the offered asset there is no price. An empty offer is stopped by the balance
after it, and any other by the balance before it. -/
theorem grossReturn_raises (hask : 0 ≤ ask) :
    (grossReturn 0 ask amount).Raises .divisionByZero := by
  simp only [grossReturn, Result.bind_raises_iff, Checked.divCeil_raises_iff,
    Checked.mulDiv_raises_iff, Checked.divCeil_eq_ok_iff, Checked.sub_eq_ok_iff]
  by_cases hamount : amount = 0
  · exact .inl ⟨by omega, trivial⟩
  · have hrest : Checked.ceilQuotient (0 * ask) (0 + amount) = 0 := by
      simp [Checked.ceilQuotient]
    exact .inr ⟨_, ⟨by omega, rfl⟩, .inr ⟨_, ⟨by omega, rfl⟩, .inl ⟨trivial, trivial⟩⟩⟩

end ConstantProduct

/-- A quote of which nothing is lost: return and fees are the exact return rounded down, and with
the spread they are what the offer is worth at the price of the balances, rounded down. -/
structure SwapQuote.AddsUp (q : SwapQuote) (offer ask amount : Int) : Prop where
  gross : q.returned + q.charges.total = (ask * amount).fdiv (offer + amount)
  gross_lt : 0 < ask → q.returned + q.charges.total < ask
  worth : q.returned + q.spread + q.charges.total = (amount * ask).fdiv offer
  returned : 0 ≤ q.returned
  spread : 0 ≤ q.spread
  charges : q.charges.Nonneg

/-- On the constant product curve every offer has a price, and no part of it is lost, unless the
pool has nothing of the offered asset: then no offer has a price. -/
theorem Market.quote_adds_up {m : Market} (hfees : m.fees.Valid) (hask : 0 ≤ m.ask)
    (hmax : m.ask ≤ maxAmount) {amount : Int} (hamount : 0 ≤ amount) (solver : Solver) :
    (0 < m.offer → ∃ q, m.quote solver amount .constantProduct = .ok q ∧
      q.AddsUp m.offer m.ask amount) ∧
    (m.offer = 0 → (m.quote solver amount .constantProduct).Raises .divisionByZero) := by
  constructor
  · intro hoffer
    obtain ⟨r, hr, hreturn, hnonneg, hworth, hspread⟩ :=
      ConstantProduct.exists_grossReturn hoffer hask hamount
    have hlt : 0 < m.ask → r.amount < m.ask := fun hpos =>
      hreturn ▸ ConstantProduct.returned_lt hoffer hpos hamount
    have hle : r.amount ≤ maxAmount := by
      by_cases hpos : 0 < m.ask
      · exact Int.le_trans (Int.le_of_lt (hlt hpos)) hmax
      · have hnone : m.ask = 0 := by omega
        rw [hreturn, hnone, Int.zero_mul, Int.zero_fdiv]
        decide
    obtain ⟨q, hq⟩ := GrossReturn.exists_net hfees hnonneg hle
    obtain ⟨hreturned, -, hcharges, hnet, hsame⟩ := GrossReturn.net_eq_ok_iff.1 hq
    refine ⟨q, Result.bind_eq_ok.2 ⟨r, hr, hq⟩, ?_, ?_, ?_, hreturned, ?_, ?_⟩
    · omega
    · intro hpos
      have := hlt hpos
      omega
    · omega
    · exact hsame ▸ hspread
    · exact hcharges ▸ m.fees.charge_nonneg hnonneg
  · intro hoffer
    rw [Market.quote, ConstantProduct.quote, hoffer, Result.bind_raises_iff]
    exact .inl (ConstantProduct.grossReturn_raises hask)

def FeeSchedule.varied : FeeSchedule where
  swap := ⟨3000000000000000⟩
  protocol := ⟨1000000000000000⟩
  burn := ⟨500000000000000⟩
  extra := [⟨250000000000000⟩, ⟨250000000000000⟩]

/-- A market in which no quotient is whole. -/
def Market.uneven : Market := ⟨2, 1000003, 2000029, 6, 6, .varied⟩

theorem Market.quote_adds_up_uneven :
    ∃ q, uneven.quote {} 7001 .constantProduct = .ok q ∧
      q = ⟨13838, 98, ⟨41, 13, 6, 6⟩⟩ ∧ q.AddsUp 1000003 2000029 7001 := by
  have hfees : uneven.fees.Valid := by decide
  have hamount : (0 : Int) ≤ 7001 := by decide
  obtain ⟨hquoted, -⟩ := quote_adds_up hfees (by decide) (by decide) hamount {}
  obtain ⟨q, hq, hsum⟩ := hquoted (by decide)
  refine ⟨q, hq, ?_, hsum⟩
  cases hq
  rfl

namespace ConstantProduct

variable {offer ask amount gross needed : Int}

/-! ## Offers -/

/-- The offer for a gross return is at most `amount` exactly if `amount` brings the gross return. -/
theorem needed_le_iff {r : GrossReturn} (hoffer : 0 ≤ offer) (hamount : 0 ≤ amount)
    (h : offerFor offer ask gross = .ok needed) (hr : grossReturn offer ask amount = .ok r) :
    needed ≤ amount ↔ gross ≤ r.amount := by
  simp only [offerFor, Result.bind_eq_ok, Checked.sub_eq_ok_iff, Checked.divCeil_eq_ok_iff] at h
  obtain ⟨_, ⟨hgross, rfl⟩, _, ⟨hrest, rfl⟩, -, rfl⟩ := h
  simp only [grossReturn, Result.bind_eq_ok, Checked.sub_eq_ok_iff, Checked.divCeil_eq_ok_iff,
    Except.ok.injEq] at hr
  obtain ⟨_, ⟨hafter, rfl⟩, _, ⟨-, rfl⟩, _, -, rfl⟩ := hr
  have hneeded : Checked.ceilQuotient (offer * ask) (ask - gross) ≤ offer + amount ↔
      offer * ask ≤ (offer + amount) * (ask - gross) :=
    Checked.ceilQuotient_le_iff (by omega)
  have hreached : Checked.ceilQuotient (offer * ask) (offer + amount) ≤ ask - gross ↔
      offer * ask ≤ (ask - gross) * (offer + amount) :=
    Checked.ceilQuotient_le_iff (by omega)
  rw [Int.mul_comm (ask - gross)] at hreached
  calc Checked.ceilQuotient (offer * ask) (ask - gross) - offer ≤ amount
      ↔ Checked.ceilQuotient (offer * ask) (ask - gross) ≤ offer + amount := by omega
    _ ↔ Checked.ceilQuotient (offer * ask) (offer + amount) ≤ ask - gross :=
        hneeded.trans hreached.symm
    _ ↔ gross ≤ ask - Checked.ceilQuotient (offer * ask) (offer + amount) := by omega

/-- The least of the offers that bring a gross return: every offer has a price, and those that bring
it are the ones from `needed` on. -/
structure LeastOffer (offer ask gross needed : Int) : Prop where
  nonneg : 0 ≤ needed
  brings_iff : ∀ amount, 0 ≤ amount →
    ∃ r, grossReturn offer ask amount = .ok r ∧ (gross ≤ r.amount ↔ needed ≤ amount)

theorem LeastOffer.unique {needed' : Int} (h : LeastOffer offer ask gross needed)
    (h' : LeastOffer offer ask gross needed') : needed = needed' := by
  have hle {m n : Int} (hm : LeastOffer offer ask gross m) (hn : LeastOffer offer ask gross n) :
      m ≤ n := by
    obtain ⟨r, hr, hiff⟩ := hm.brings_iff n hn.nonneg
    obtain ⟨r', hr', hiff'⟩ := hn.brings_iff n hn.nonneg
    cases hr.symm.trans hr'
    exact hiff.1 (hiff'.2 (Int.le_refl n))
  exact Int.le_antisymm (hle h h') (hle h' h)

theorem le_balance (hoffer : 0 < offer) (hgross : 0 ≤ gross) (hlt : gross < ask) :
    offer ≤ Checked.ceilQuotient (offer * ask) (ask - gross) := by
  have hrest : 0 < ask - gross := by omega
  by_contra hless
  have hreached : offer * ask ≤ (offer - 1) * (ask - gross) :=
    (Checked.ceilQuotient_le_iff hrest).1 (Int.le_sub_one_of_lt (Int.not_le.1 hless))
  have hsmall : (offer - 1) * (ask - gross) ≤ (offer - 1) * ask :=
    Int.mul_le_mul_of_nonneg_left (by omega) (by omega)
  rw [Int.sub_mul offer 1 ask, Int.one_mul] at hsmall
  omega

/-- Whatever leaves some of the reserve has a least offer. -/
theorem exists_offerFor (hoffer : 0 < offer) (hgross : 0 ≤ gross) (hlt : gross < ask) :
    ∃ needed, offerFor offer ask gross = .ok needed ∧ LeastOffer offer ask gross needed := by
  have hkept := le_balance hoffer hgross hlt
  have hneeded : offerFor offer ask gross =
      .ok (Checked.ceilQuotient (offer * ask) (ask - gross) - offer) := by
    simp only [offerFor, Result.bind_eq_ok, Checked.divCeil_eq_ok_iff, Checked.sub_eq_ok_iff]
    exact ⟨_, ⟨Int.le_of_lt hlt, rfl⟩, _, ⟨by omega, rfl⟩, hkept, rfl⟩
  refine ⟨_, hneeded, Int.sub_nonneg_of_le hkept, fun amount hamount => ?_⟩
  obtain ⟨r, hr, -⟩ := exists_grossReturn hoffer (show 0 ≤ ask by omega) hamount
  exact ⟨r, hr, (needed_le_iff (Int.le_of_lt hoffer) hamount hneeded hr).symm⟩

/-- An offer is computed exactly for what leaves some of the reserve. -/
theorem offerFor_eq_ok_iff (hoffer : 0 < offer) (hgross : 0 ≤ gross) :
    offerFor offer ask gross = .ok needed ↔ gross < ask ∧ LeastOffer offer ask gross needed := by
  constructor
  · intro h
    have hlt : gross < ask := by
      simp only [offerFor, Result.bind_eq_ok, Checked.sub_eq_ok_iff, Checked.divCeil_eq_ok_iff] at h
      obtain ⟨_, ⟨hle, rfl⟩, _, ⟨hrest, -⟩, -⟩ := h
      omega
    obtain ⟨needed', h', hleast⟩ := exists_offerFor hoffer hgross hlt
    cases h.symm.trans h'
    exact ⟨hlt, hleast⟩
  · rintro ⟨hlt, hleast⟩
    obtain ⟨needed', h', hleast'⟩ := exists_offerFor hoffer hgross hlt
    rw [h', hleast'.unique hleast]

theorem offerFor_raises_iff {kind : FaultKind} (hoffer : 0 < offer) (hgross : 0 ≤ gross) :
    (offerFor offer ask gross).Raises kind ↔
      ask < gross ∧ .underflow = kind ∨ gross = ask ∧ .divisionByZero = kind := by
  simp only [offerFor, Result.bind_raises_iff, Checked.sub_raises_iff, Checked.sub_eq_ok_iff,
    Checked.divCeil_raises_iff, Checked.divCeil_eq_ok_iff]
  constructor
  · rintro (hshort | ⟨_, ⟨hle, rfl⟩, ⟨hdrained, hkind⟩ | ⟨_, ⟨hrest, rfl⟩, hless, -⟩⟩)
    · exact .inl hshort
    · exact .inr ⟨by omega, hkind⟩
    -- The last step cannot fail: the new balance is at least the old one.
    · have hkept := le_balance hoffer hgross (show gross < ask by omega)
      omega
  · rintro (hshort | ⟨rfl, hkind⟩)
    · exact .inl hshort
    · exact .inr ⟨_, ⟨Int.le_refl _, rfl⟩, .inl ⟨Int.sub_self _, hkind⟩⟩

section

variable {fees : FeeSchedule} {net : Int}

theorem quoteOffer_raises_iff {kind : FaultKind} (h : grossAmount fees net = .ok gross)
    (hoffer : 0 < offer) (hgross : 0 ≤ gross) :
    (quoteOffer offer ask net fees).Raises kind ↔
      (ask < gross ∧ .underflow = kind ∨ gross = ask ∧ .divisionByZero = kind) ∨
        ∃ needed, (gross < ask ∧ LeastOffer offer ask gross needed) ∧
          maxAmount < needed ∧ .conversionOverflow = kind := by
  have hne : offer ≠ 0 := Int.ne_of_gt hoffer
  simp only [quoteOffer, h, Result.bind_raises_iff, Result.not_raises_ok, false_or, Except.ok.injEq,
    exists_eq_left', exists_eq_left, offerFor_raises_iff hoffer hgross,
    offerFor_eq_ok_iff hoffer hgross, Checked.mulDiv_raises_iff, Checked.mulDiv_eq_ok_iff, hne,
    false_and, ne_eq, not_false_eq_true, true_and, Checked.narrow_raises_iff, and_false,
    exists_false, or_false]
  refine or_congr_right (exists_congr fun needed => and_congr_right fun hneeded => ?_)
  have hnonneg := hneeded.2.nonneg
  exact and_congr_left fun _ => by omega

theorem exists_quoteOffer_iff (h : grossAmount fees net = .ok gross) (hoffer : 0 < offer)
    (hgross : 0 ≤ gross) :
    (∃ b, quoteOffer offer ask net fees = .ok b ∧ b.offer = needed) ↔
      (gross < ask ∧ LeastOffer offer ask gross needed) ∧ needed ≤ maxAmount := by
  simp only [quoteOffer, h, Result.bind_eq_ok, Except.ok.injEq, exists_eq_left',
    offerFor_eq_ok_iff hoffer hgross, Checked.mulDiv_eq_ok_iff, Checked.narrow_eq_ok_iff]
  constructor
  · rintro ⟨_, ⟨needed, hneeded, _, -, _, ⟨-, hmax, rfl⟩, rfl⟩, rfl⟩
    exact ⟨hneeded, hmax⟩
  · rintro ⟨hneeded, hmax⟩
    exact ⟨_, ⟨needed, hneeded, _, ⟨Int.ne_of_gt hoffer, rfl⟩, _,
      ⟨hneeded.2.nonneg, hmax, rfl⟩, rfl⟩, rfl⟩

/-- What is quoted for a gross return: the least offer that brings it. There is no quote for more
than the reserve, for the whole of it, and where the least offer is no amount of 128 bits, and each
of these raises a fault of its own kind. -/
structure QuotesLeast (offer ask gross : Int) (quoted : Result OfferQuote) : Prop where
  short : quoted.Raises .underflow ↔ ask < gross
  drained : quoted.Raises .divisionByZero ↔ gross = ask
  large : quoted.Raises .conversionOverflow ↔
    ∃ needed, (gross < ask ∧ LeastOffer offer ask gross needed) ∧ maxAmount < needed
  least : gross < ask → ∃ needed, LeastOffer offer ask gross needed
  offered : ∀ needed, (∃ b, quoted = .ok b ∧ b.offer = needed) ↔
    (gross < ask ∧ LeastOffer offer ask gross needed) ∧ needed ≤ maxAmount

/-- The gross return that an offer is quoted for is the return by what the fees leave of one,
rounded up, and what is quoted is the least offer that brings it. -/
theorem quotesLeast_quoteOffer (hfees : fees.Valid) (hoffer : 0 < offer) (hnet : 0 ≤ net)
    (ask : Int) :
    ∃ gross, (∀ g, gross ≤ g ↔ net * Ratio.unit ≤ g * (Ratio.unit - fees.total.atomics)) ∧
      QuotesLeast offer ask gross (quoteOffer offer ask net fees) := by
  obtain ⟨gross, h, hceil⟩ := exists_grossAmount hfees net
  have hgross := grossAmount_nonneg h hnet
  refine ⟨gross, hceil, ?_, ?_, ?_, fun hlt => ?_, fun _ => exists_quoteOffer_iff h hoffer hgross⟩
  · simp [quoteOffer_raises_iff h hoffer hgross]
  · simp [quoteOffer_raises_iff h hoffer hgross]
  · simp [quoteOffer_raises_iff h hoffer hgross]
  · obtain ⟨needed, -, hleast⟩ := exists_offerFor hoffer hgross hlt
    exact ⟨needed, hleast⟩

theorem quotesLeast_quoteOffer_varied :
    ∃ gross b, QuotesLeast 1000003 2000029 gross (quoteOffer 1000003 2000029 7001 .varied) ∧
      quoteOffer 1000003 2000029 7001 .varied = .ok b ∧ b.offer = 3531 ∧
      LeastOffer 1000003 2000029 gross 3531 := by
  have hfees : FeeSchedule.varied.Valid := by decide
  have hoffer : (0 : Int) < 1000003 := by decide
  have hnet : (0 : Int) ≤ 7001 := by decide
  obtain ⟨gross, -, hquotes⟩ := quotesLeast_quoteOffer hfees hoffer hnet 2000029
  obtain ⟨b, hb, hneeded⟩ : ∃ b, quoteOffer 1000003 2000029 7001 .varied = .ok b ∧
      b.offer = 3531 := ⟨_, rfl, rfl⟩
  exact ⟨gross, b, hquotes, hb, hneeded, ((hquotes.offered 3531).1 ⟨b, hb, hneeded⟩).1.2⟩

end

end ConstantProduct

end MarketMaker
