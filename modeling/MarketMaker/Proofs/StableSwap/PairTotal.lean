import MarketMaker.Proofs.StableSwap.Price

/-! # The total of a pair

In a pool of two assets, the balance that the solver finds and the one that has moved come to the
invariant at least, however early the iteration stops. So a price never pays out more than the offer
and what the balances had above their invariant, less the unit that is held back. -/

namespace MarketMaker.StableSwap

open Precision

variable {solver : Solver} {offer ask amount amp y : Int} {direction : Direction}

/-! ## The solved balance -/

theorem pos_of_moved {x : Int} (hoffer : 0 < offer) (hamount : 0 ≤ amount)
    (h : moved offer ask amount direction = .ok x) : 0 < x := by
  cases direction with
  | forward =>
      cases h
      omega
  | backward =>
      rw [moved, Result.guarded_eq_ok, Except.ok.injEq] at h
      omega

namespace Solve.Of

variable {k : Solve}

/-- The constant reaches the linear part at what the moved balance leaves of the invariant. -/
theorem part_mul_le (h : k.Of solver 2 offer ask amount amp direction y) (hann : 0 < k.ann)
    (hx : 0 < k.x) (hd : 0 ≤ k.d) (hle : k.x ≤ k.d) : k.e * (k.d - k.x) ≤ k.c := by
  have hlinear := (h.quotients (by decide) hann hx).linear.2
  -- The product of the moved balance and the rest is at most a quarter of the square.
  have hratio : 2 * (k.d - k.x) ≤ k.ratio := by
    have hsquare : 0 ≤ (k.d - 2 * k.x) ^ 2 := sq_nonneg _
    rw [(Checked.div_eq_ok_iff.1 h.ratio).2, le_fdiv_iff (by omega)]
    linarith
  rw [(Checked.div_eq_ok_iff.1 h.constant).2, le_fdiv_iff (by omega)]
  calc k.e * (k.d - k.x) * (k.ann * 2) = k.e * k.ann * (2 * (k.d - k.x)) := by ring
    _ ≤ k.d * (2 * (k.d - k.x)) := Int.mul_le_mul_of_nonneg_right hlinear (by omega)
    _ ≤ k.d * k.ratio := Int.mul_le_mul_of_nonneg_left hratio hd
    _ = k.ratio * k.d := Int.mul_comm _ _

theorem invariant_le (h : k.Of solver 2 offer ask amount amp direction y) (hnonneg : k.Nonneg)
    (hx : 0 < k.x) : k.d ≤ y + k.x := by
  have hann := hnonneg.ann
  have hy := balanceStep_nonneg hnonneg.c h.step
  by_contra hlt
  have hbelow := (h.lt_iff (k.d - k.x)).1 (by omega)
  have hpart := h.part_mul_le (by omega) hx hnonneg.d (by omega)
  have hgap : 0 ≤ (k.d - k.x - k.last) ^ 2 := sq_nonneg _
  rw [EndsBelow, excess] at hbelow
  linarith

end Solve.Of

theorem invariant_le_of_counterBalance (hamp : 1 ≤ amp) (hoffer : 0 < offer) (hask : 0 < ask)
    (hamount : 0 ≤ amount) (h : counterBalance solver 2 offer ask amount amp direction = .ok y) :
    ∃ d x, pairInvariant solver amp 2 offer ask = .ok d ∧
      moved offer ask amount direction = .ok x ∧ d ≤ y + x := by
  obtain ⟨k, hk⟩ := exists_solve h
  have hx := pos_of_moved hoffer hamount hk.moved
  have hnonneg := hk.nonneg (Int.le_refl 2) hamp (Int.le_of_lt hoffer) (Int.le_of_lt hask)
    (Int.le_of_lt hx)
  exact ⟨k.d, k.x, hk.invariant, hk.moved, hk.invariant_le hnonneg hx⟩

/-! ## Returns -/

namespace Side

variable {s : Side}

def raisedReturn (solver : Solver) (s : Side) (raised : Int) : Result Int := do
  let balance ← counterBalance solver s.n s.offerRaised s.askRaised raised s.amp .forward
  .ok (Checked.subFloor s.askRaised (balance + 1))

theorem exists_raisedReturn {gross : GrossReturn} (h : grossReturn solver s amount = .ok gross) :
    ∃ paid, s.raisedReturn solver (raise amount s.offerDecimals s.precision) = .ok paid ∧
      gross.amount = lower paid s.precision s.askDecimals := by
  simp only [grossReturn, Result.bind_eq_ok, Except.ok.injEq] at h
  obtain ⟨balance, hbalance, rfl⟩ := h
  exact ⟨_, Result.bind_eq_ok.2 ⟨balance, hbalance, rfl⟩, rfl⟩

theorem raisedReturn_le {raised paid : Int} (hn : s.n = 2) (hamp : 1 ≤ s.amp) (hoffer : 0 < s.offer)
    (hask : 0 < s.ask) (hraised : 0 ≤ raised) (h : s.raisedReturn solver raised = .ok paid) :
    ∃ d, s.invariant solver = .ok d ∧ 0 ≤ paid ∧
      paid ≤ max 0 (raised + (s.offerRaised + s.askRaised - d) - 1) := by
  obtain ⟨y, hy, hpaid⟩ := Result.bind_eq_ok.1 h
  cases hpaid
  rw [hn] at hy
  have hofferRaised : 0 < s.offerRaised := raise_pos hoffer _ _
  have haskRaised : 0 < s.askRaised := raise_pos hask _ _
  obtain ⟨d, x, hd, hx, hle⟩ :=
    invariant_le_of_counterBalance hamp hofferRaised haskRaised hraised hy
  cases hx
  rw [← hn] at hd
  exact ⟨d, hd, Int.le_max_left _ _, max_le_max (Int.le_refl 0) (by omega)⟩

end Side

/-- In a pool of two assets the solved balance and the moved one never come to less than the
invariant. What is paid for an offer stays below it by a unit, but for what the balances have above
their invariant; where they have nothing, an offer of nothing brings nothing. -/
theorem invariant_le_pair_total (solver : Solver) :
    (∀ (direction : Direction) (offer ask amount amp y : Int), 1 ≤ amp → 0 < offer → 0 < ask →
      0 ≤ amount → counterBalance solver 2 offer ask amount amp direction = .ok y →
      ∃ d x, pairInvariant solver amp 2 offer ask = .ok d ∧
        moved offer ask amount direction = .ok x ∧ d ≤ y + x) ∧
    ∀ (s : Side) (offered : Int) (gross : GrossReturn), s.n = 2 → 1 ≤ s.amp → 0 < s.offer →
      0 < s.ask → 0 ≤ offered → grossReturn solver s offered = .ok gross →
      let raised := raise offered s.offerDecimals s.precision
      ∃ d paid, s.invariant solver = .ok d ∧ s.raisedReturn solver raised = .ok paid ∧
        gross.amount = lower paid s.precision s.askDecimals ∧
        paid ≤ max 0 (raised + (s.offerRaised + s.askRaised - d) - 1) ∧
        (d = s.offerRaised + s.askRaised →
          (0 < offered → paid < raised) ∧ (offered = 0 → paid = 0)) := by
  constructor
  · intro direction offer ask amount amp y hamp hoffer hask hamount h
    exact invariant_le_of_counterBalance hamp hoffer hask hamount h
  · intro s offered gross hn hamp hoffer hask hoffered h
    obtain ⟨paid, hpaid, hgross⟩ := Side.exists_raisedReturn h
    have hraised : 0 ≤ raise offered s.offerDecimals s.precision := raise_nonneg hoffered _ _
    obtain ⟨d, hd, hnonneg, hle⟩ := Side.raisedReturn_le hn hamp hoffer hask hraised hpaid
    refine ⟨d, paid, hd, hpaid, hgross, hle, fun heven => ⟨fun hpos => ?_, ?_⟩⟩
    · have hraisedPos : 0 < raise offered s.offerDecimals s.precision := raise_pos hpos _ _
      omega
    · rintro rfl
      rw [raise, Int.zero_mul] at hle
      omega

/-- A lopsided pair, and a pool whose balances are their invariant. -/
theorem invariant_le_pair_total_deep :
    (∃ y, counterBalance {} 2 6 31 10 1 .backward = .ok y ∧ 33 ≤ y + 21) ∧
      Side.deep.invariant {} = .ok (Side.deep.offerRaised + Side.deep.askRaised) ∧
      ∃ paid, Side.deep.raisedReturn {} 5000000000 = .ok paid ∧ paid < 5000000000 := by
  obtain ⟨htotal, hreturn⟩ := invariant_le_pair_total {}
  have heven : Side.deep.invariant {} = .ok (Side.deep.offerRaised + Side.deep.askRaised) := rfl
  refine ⟨?_, heven, ?_⟩
  · obtain ⟨y, hy⟩ : ∃ y, counterBalance {} 2 6 31 10 1 .backward = .ok y := ⟨_, rfl⟩
    obtain ⟨d, x, hd, hx, hle⟩ :=
      htotal .backward 6 31 10 1 y (by decide) (by decide) (by decide) (by decide) hy
    cases hd
    cases hx
    exact ⟨y, hy, hle⟩
  · obtain ⟨gross, hgross⟩ : ∃ gross, grossReturn {} Side.deep 5000000 = .ok gross := ⟨_, rfl⟩
    obtain ⟨d, paid, hd, hpaid, -, -, hfair⟩ := hreturn Side.deep 5000000 gross rfl (by decide)
      (by decide) (by decide) (by decide) hgross
    have hsum := Except.ok.inj (hd.symm.trans heven)
    exact ⟨paid, hpaid, (hfair hsum).1 (by decide)⟩

end MarketMaker.StableSwap
