import MarketMaker.Proofs.StableSwap.Swap

/-! # What the roundings of a stableswap price come to

The solver rounds the constants of its quadratic down, and its answer with them. One unit is held
back from a return and one is added to an offer, and neither makes up for the constants in every
pool: a return can exceed what the offer is worth at the price of the balances, and an offer can
bring less than it was quoted for. When this happens is decided by the quadratic of the solve. -/

namespace MarketMaker

namespace Precision

variable {a g source target : Int}

theorem le_lower_iff : g ≤ lower a source target ↔ raise g target source ≤ a :=
  le_fdiv_iff (unitsPer_pos _)

theorem le_raise_lowerCeil (a source target : Int) :
    a ≤ raise (lowerCeil a source target) target source :=
  Checked.le_ceilQuotient_mul _ (unitsPer_pos _)

theorem lower_le_of_le_raise (h : a ≤ raise g target source) : lower a source target ≤ g := by
  have hunits := unitsPer_pos (source - target).toNat
  refine Int.lt_add_one_iff.1 ((fdiv_lt_iff hunits).2 ?_)
  rw [Int.add_mul, Int.one_mul]
  exact Int.lt_of_le_of_lt h (Int.lt_add_of_pos_right _ hunits)

theorem lower_nonneg (h : 0 ≤ a) (source target : Int) : 0 ≤ lower a source target :=
  Int.fdiv_nonneg h (Int.le_of_lt (unitsPer_pos _))

end Precision

namespace StableSwap

open Precision

/-! ## The quadratic of a solve -/

namespace Solve

variable {k : Solve}

theorem EndsBelow.excess_pos {w : Int} (h : k.EndsBelow w) : 0 < k.excess w :=
  Int.lt_of_le_of_lt (sq_nonneg _) h

/-- Where the quadratic is above zero, it rises. -/
theorem excess_pos_of_le (hc : 0 ≤ k.c) {w w' : Int} (hw : 0 < w) (hle : w ≤ w')
    (h : 0 < k.excess w) : 0 < k.excess w' := by
  have hroot : 0 < w + (k.x + k.e - k.d) := by
    by_contra hneg
    have hmul : w * (w + (k.x + k.e - k.d)) ≤ 0 :=
      Int.mul_nonpos_of_nonneg_of_nonpos (Int.le_of_lt hw) (by omega)
    rw [excess] at h
    linarith
  have hgrown : w * (w + (k.x + k.e - k.d)) ≤ w' * (w' + (k.x + k.e - k.d)) :=
    Int.mul_le_mul hle (by omega) (Int.le_of_lt hroot) (by omega)
  rw [excess] at h ⊢
  linarith

/-- Two solves of one curve from opposite sides, each at the balance that the other has moved: they
differ by their constants only. -/
theorem excess_exchange {back forth : Solve} (hd : forth.d = back.d) (he : forth.e = back.e) :
    forth.x * forth.excess back.x =
      back.x * back.excess forth.x + (back.x * back.c - forth.x * forth.c) := by
  rw [excess, excess, hd, he]
  ring

theorem endsBelow_of_constants {back forth : Solve} (hd : forth.d = back.d) (he : forth.e = back.e)
    (hback : 0 < back.x) (hforth : 0 < forth.x) (hexcess : 0 < back.excess forth.x)
    (h : forth.x * (forth.c + (back.x - forth.last) ^ 2) ≤ back.x * back.c) :
    forth.EndsBelow back.x := by
  have hexchange := excess_exchange hd he
  have hproduct : 0 < back.x * back.excess forth.x := Int.mul_pos hback hexcess
  refine Int.lt_of_mul_lt_mul_left ?_ (Int.le_of_lt hforth)
  rw [hexchange]
  linarith

end Solve

/-! ## Returns -/

namespace Side

variable {s : Side} {solver : Solver} {fees : FeeSchedule} {amount : Int}

/-- What an offer is worth at the price of the balances, and at least at par. -/
def worth (s : Side) (amount : Int) : Int :=
  let raised := raise amount s.offerDecimals s.precision
  lower (max raised ((raised * s.askRaised).fdiv s.offerRaised)) s.precision s.askDecimals

/-- The solve of a price when a balance has moved by an amount. -/
def Solves (s : Side) (solver : Solver) (k : Solve) (raised : Int) (direction : Direction) :
    Prop :=
  ∃ y, k.Of solver s.n s.offerRaised s.askRaised raised s.amp direction y

/-- A gross return reaches `g` where the solve for the offer ends below the asked balance less
`g`. -/
theorem le_grossReturn_iff {gross : GrossReturn} (h : grossReturn solver s amount = .ok gross) :
    ∃ k, s.Solves solver k (raise amount s.offerDecimals s.precision) .forward ∧
      ∀ g, 0 < g →
        (g ≤ gross.amount ↔ k.EndsBelow (s.askRaised - raise g s.askDecimals s.precision)) := by
  simp only [grossReturn, Result.bind_eq_ok, Except.ok.injEq] at h
  obtain ⟨y, hy, rfl⟩ := h
  obtain ⟨k, hk⟩ := exists_solve hy
  refine ⟨k, ⟨y, hk⟩, fun g hg => ?_⟩
  have hraised : 0 < raise g s.askDecimals s.precision := raise_pos hg _ _
  rw [← hk.lt_iff, le_lower_iff, Checked.subFloor]
  omega

/-- Return, spread and fees together are the gross return, or the value at par if that is larger. -/
theorem sum_of_quote {q : SwapQuote} (h : quote solver s amount fees = .ok q) :
    ∃ gross, grossReturn solver s amount = .ok gross ∧
      q.returned + q.spread + q.charges.total = max gross.amount
        (lower (raise amount s.offerDecimals s.precision) s.precision s.askDecimals) := by
  obtain ⟨gross, hgross, hnet⟩ := Result.bind_eq_ok.1 h
  obtain ⟨-, -, -, hreturned, hspread⟩ := GrossReturn.net_eq_ok_iff.1 hnet
  refine ⟨gross, hgross, ?_⟩
  simp only [grossReturn, Result.bind_eq_ok, Except.ok.injEq] at hgross
  obtain ⟨y, -, rfl⟩ := hgross
  dsimp only [Checked.subFloor] at hreturned hspread ⊢
  omega

theorem par_le_worth (s : Side) (amount : Int) :
    lower (raise amount s.offerDecimals s.precision) s.precision s.askDecimals ≤
      s.worth amount := by
  rw [worth, le_lower_iff]
  exact Int.le_trans (raise_lower_le _ _ _) (Int.le_max_left _ _)

/-- Return, spread and fees stay within what the offer is worth, unless the solve ends below the
balance that is one unit short of it. -/
theorem sum_le_worth_iff {q : SwapQuote} (h : quote solver s amount fees = .ok q)
    (hamount : 0 ≤ amount) :
    ∃ k, s.Solves solver k (raise amount s.offerDecimals s.precision) .forward ∧
      (q.returned + q.spread + q.charges.total ≤ s.worth amount ↔
        ¬k.EndsBelow (s.askRaised - raise (s.worth amount + 1) s.askDecimals s.precision)) := by
  obtain ⟨gross, hgross, hsum⟩ := sum_of_quote h
  obtain ⟨k, hk, hreach⟩ := le_grossReturn_iff hgross
  have hpar := s.par_le_worth amount
  have hnonneg : 0 ≤ lower (raise amount s.offerDecimals s.precision) s.precision s.askDecimals :=
    lower_nonneg (raise_nonneg hamount _ _) _ _
  refine ⟨k, hk, ?_⟩
  rw [← hreach _ (by omega), hsum]
  omega

def skewed : Side := ⟨2, 1, 1, 10, 0, 0⟩

theorem sum_le_worth_skewed :
    ∃ q k, quote {} skewed 1 {} = .ok q ∧ skewed.Solves {} k 1 .forward ∧
      (q.returned + q.spread + q.charges.total ≤ 10 ↔ ¬k.EndsBelow (-1)) := by
  obtain ⟨q, hq⟩ : ∃ q, quote {} skewed 1 {} = .ok q := ⟨_, rfl⟩
  obtain ⟨k, hk, hsum⟩ := sum_le_worth_iff hq (by decide)
  exact ⟨q, k, hq, hk, hsum⟩

/-- An offer of nothing is worth nothing, and takes one unit out of the pool. -/
theorem worth_lt_sum_skewed :
    ∃ q, quote {} skewed 0 {} = .ok q ∧ q.returned = 1 ∧ skewed.worth 0 = 0 ∧
      skewed.worth 0 < q.returned + q.spread + q.charges.total :=
  ⟨_, rfl, rfl, by decide, by decide⟩

/-! ## Offers -/

/-- The two solves of a curve from opposite sides have its invariant in common. -/
theorem Solves.same {back forth : Solve} {raised raised' : Int} {direction direction' : Direction}
    (hback : s.Solves solver back raised direction)
    (hforth : s.Solves solver forth raised' direction') : forth.d = back.d ∧ forth.e = back.e := by
  obtain ⟨_, hback⟩ := hback
  obtain ⟨_, hforth⟩ := hforth
  have hd : forth.d = back.d := Except.ok.inj (hforth.invariant.symm.trans hback.invariant)
  have hann : forth.ann = back.ann := Except.ok.inj (hforth.ann.symm.trans hback.ann)
  refine ⟨hd, ?_⟩
  rw [(Checked.div_eq_ok_iff.1 hforth.part).2, (Checked.div_eq_ok_iff.1 hback.part).2, hd, hann]

theorem offer_nonneg_of_quoteOffer {ask : Int} {b : OfferQuote}
    (h : quoteOffer solver s ask fees = .ok b) : 0 ≤ b.offer := by
  simp only [quoteOffer, Result.bind_eq_ok, Checked.narrow_eq_ok_iff, Except.ok.injEq] at h
  obtain ⟨_, -, _, -, _, -, _, ⟨hnonneg, -, rfl⟩, rfl⟩ := h
  exact hnonneg

/-- A quoted offer brings the offered balance above the curve, as the solve for the return has
it. -/
theorem excess_pos_of_quoteOffer {ask : Int} {b : OfferQuote} (hn : 2 ≤ s.n) (hamp : 1 ≤ s.amp)
    (hoffer : 0 < s.offer) (hask : 0 < s.ask) (h : quoteOffer solver s ask fees = .ok b) :
    ∃ gross back, grossAmount fees ask = .ok gross ∧
      s.Solves solver back (raise gross s.askDecimals s.precision) .backward ∧
      back.x = s.askRaised - raise gross s.askDecimals s.precision ∧ 0 < back.x ∧
      0 < back.excess (s.offerRaised + raise b.offer s.offerDecimals s.precision) := by
  simp only [quoteOffer, Result.bind_eq_ok, Checked.sub_eq_ok_iff, Checked.narrow_eq_ok_iff,
    Except.ok.injEq] at h
  obtain ⟨gross, hgross, y, hy, _, ⟨-, rfl⟩, _, ⟨-, -, rfl⟩, rfl⟩ := h
  obtain ⟨k, hk⟩ := exists_solve hy
  have hmoved := hk.moved
  rw [moved, Result.guarded_eq_ok, Except.ok.injEq] at hmoved
  obtain ⟨hlt, hx⟩ := hmoved
  have hxpos : 0 < k.x := by omega
  have hsigns := hk.nonneg hn hamp (raise_nonneg (Int.le_of_lt hoffer) _ _)
    (raise_nonneg (Int.le_of_lt hask) _ _) (Int.le_of_lt hxpos)
  have hynonneg : 0 ≤ y := balanceStep_nonneg hsigns.c hk.step
  have hraised : y - s.offerRaised + 1 ≤ raise
      (lowerCeil (y - s.offerRaised + 1) s.precision s.offerDecimals) s.offerDecimals s.precision :=
    le_raise_lowerCeil _ _ _
  refine ⟨gross, k, hgross, ⟨y, hk⟩, hx.symm, hxpos, ?_⟩
  have hnext : 0 < k.excess (y + 1) := ((hk.lt_iff (y + 1)).1 (Int.lt_succ y)).excess_pos
  exact Solve.excess_pos_of_le hsigns.c (by omega) (by dsimp only; omega) hnext

/-- What is quoted for a return brings that return exactly if the solve for the offer ends below the
asked balance less the return and its fees. It does where the constant of the quote, for the
balance that it moved, makes up for that of the offer. -/
theorem le_returned_iff {ask : Int} {b : OfferQuote} {q : SwapQuote} (hn : 2 ≤ s.n)
    (hamp : 1 ≤ s.amp) (hoffer : 0 < s.offer) (hask : 0 < s.ask)
    (hb : quoteOffer solver s ask fees = .ok b) (hq : quote solver s b.offer fees = .ok q) :
    ∃ gross back forth, grossAmount fees ask = .ok gross ∧
      s.Solves solver back (raise gross s.askDecimals s.precision) .backward ∧
      s.Solves solver forth (raise b.offer s.offerDecimals s.precision) .forward ∧
      (forth.x * (forth.c + (back.x - forth.last) ^ 2) ≤ back.x * back.c → ask ≤ q.returned) ∧
      (ask ≤ q.returned ↔ ask ≤ 0 ∨ forth.EndsBelow
        (s.askRaised - raise (ask + q.charges.total) s.askDecimals s.precision)) := by
  obtain ⟨gross, back, hgross, hback, hbackx, hbackpos, hexcess⟩ :=
    excess_pos_of_quoteOffer hn hamp hoffer hask hb
  obtain ⟨r, hr, hnet⟩ := Result.bind_eq_ok.1 hq
  obtain ⟨forth, hforth, hreach⟩ := le_grossReturn_iff hr
  have hnonneg : 0 ≤ r.amount := grossReturn_nonneg hr
  refine ⟨gross, back, forth, hgross, hback, hforth, ?_, ?_⟩
  · intro hconstants
    obtain ⟨hd, he⟩ := hback.same hforth
    obtain ⟨_, hof⟩ := hforth
    have hx : s.offerRaised + raise b.offer s.offerDecimals s.precision = forth.x :=
      Except.ok.inj hof.moved
    have hxpos : 0 < forth.x := by
      have hofferRaised : 0 < s.offerRaised := raise_pos hoffer _ _
      have hraised := raise_nonneg (offer_nonneg_of_quoteOffer hb) s.offerDecimals s.precision
      omega
    rw [hx] at hexcess
    have hends := Solve.endsBelow_of_constants hd he hbackpos hxpos hexcess hconstants
    rw [hbackx] at hends
    refine GrossReturn.le_returned hnet hgross ?_
    by_cases hpos : 0 < gross
    · exact (hreach gross hpos).2 hends
    · omega
  · obtain ⟨hreturned, -, hcharges, hpaid, -⟩ := GrossReturn.net_eq_ok_iff.1 hnet
    have hcharged : 0 ≤ q.charges.total := (hcharges ▸ fees.charge_nonneg hnonneg).total
    by_cases hpos : 0 < ask
    · rw [← hreach _ (by omega)]
      omega
    · omega

def deep : Side := ⟨2, 100, 1000000000, 1000000000000, 6, 9⟩

def swapFee : FeeSchedule := { swap := ⟨3000000000000000⟩ }

theorem le_returned_deep :
    ∃ b q, quoteOffer {} deep 5000000 swapFee = .ok b ∧ quote {} deep b.offer swapFee = .ok q ∧
      ∃ forth, deep.Solves {} forth (raise b.offer 6 9) .forward ∧
        (5000000 ≤ q.returned ↔ (5000000 : Int) ≤ 0 ∨
          forth.EndsBelow (1000000000000 - raise (5000000 + q.charges.total) 9 9)) := by
  obtain ⟨b, hb⟩ : ∃ b, quoteOffer {} deep 5000000 swapFee = .ok b := ⟨_, rfl⟩
  obtain ⟨q, hq⟩ : ∃ q, quote {} deep b.offer swapFee = .ok q := by
    cases hb
    exact ⟨_, rfl⟩
  obtain ⟨gross, back, forth, -, -, hforth, -, hiff⟩ :=
    le_returned_iff (by decide) (by decide) (by decide) (by decide) hb hq
  exact ⟨b, q, hb, hq, forth, hforth, hiff⟩

/-- In a pool of three and two units, two are quoted for one, and bring nothing. -/
theorem returned_lt_quoted :
    ∃ b q, quoteOffer {} ⟨2, 1, 3, 2, 0, 0⟩ 1 {} = .ok b ∧ b.offer = 2 ∧
      quote {} ⟨2, 1, 3, 2, 0, 0⟩ b.offer {} = .ok q ∧ q.returned < 1 :=
  ⟨_, _, rfl, rfl, rfl, by decide⟩

end Side

end StableSwap

end MarketMaker
