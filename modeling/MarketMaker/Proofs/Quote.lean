import MarketMaker.Proofs.Rounding
import MarketMaker.Quote.Curve

/-! # What a quote takes out of a pool -/

namespace MarketMaker

theorem Ratio.mulFloor_nonneg (r : Ratio) {amount : Int} (h : 0 ≤ amount) :
    0 ≤ r.mulFloor amount := by
  have hproduct : 0 ≤ amount * r.atomics := Int.mul_nonneg h (Int.natCast_nonneg _)
  have hunit : (0 : Int) ≤ Ratio.unit := by decide
  exact Int.fdiv_nonneg hproduct hunit

structure Charges.Nonneg (c : Charges) : Prop where
  swap : 0 ≤ c.swap
  protocol : 0 ≤ c.protocol
  burn : 0 ≤ c.burn
  extra : 0 ≤ c.extra

namespace Charges.Nonneg

variable {c : Charges}

theorem collected (h : c.Nonneg) : 0 ≤ c.collected := Int.add_nonneg h.protocol h.extra

theorem outgoing (h : c.Nonneg) : 0 ≤ c.outgoing :=
  Int.add_nonneg (Int.add_nonneg h.protocol h.burn) h.extra

theorem total (h : c.Nonneg) : 0 ≤ c.total := by
  rw [Charges.total_eq_swap_add_outgoing]
  exact Int.add_nonneg h.swap h.outgoing

end Charges.Nonneg

theorem FeeSchedule.charge_nonneg (fees : FeeSchedule) {amount : Int} (h : 0 ≤ amount) :
    (fees.charge amount).Nonneg where
  swap := fees.swap.mulFloor_nonneg h
  protocol := fees.protocol.mulFloor_nonneg h
  burn := fees.burn.mulFloor_nonneg h
  extra := by
    apply sumOf_nonneg
    intro x hx
    obtain ⟨share, -, rfl⟩ := List.mem_map.1 hx
    exact share.mulFloor_nonneg h

theorem GrossReturn.net_eq_ok_iff {gross : GrossReturn} {fees : FeeSchedule} {q : SwapQuote} :
    gross.net fees = .ok q ↔
      0 ≤ q.returned ∧ q.returned ≤ maxAmount ∧ q.charges = fees.charge gross.amount ∧
        q.returned = gross.amount - q.charges.total ∧ q.spread = gross.spread := by
  simp only [GrossReturn.net, Result.bind_eq_ok, Checked.sub_eq_ok_iff, Checked.narrow_eq_ok_iff,
    Except.ok.injEq]
  constructor
  · rintro ⟨_, ⟨-, rfl⟩, _, ⟨hpos, hmax, rfl⟩, rfl⟩
    exact ⟨hpos, hmax, rfl, rfl, rfl⟩
  · rintro ⟨hpos, hmax, hcharges, hreturned, hspread⟩
    rw [hcharges] at hreturned
    refine ⟨_, ⟨by omega, rfl⟩, _, ⟨by omega, by omega, rfl⟩, ?_⟩
    cases q
    simp_all

/-- Nothing is paid beyond the gross return. -/
theorem GrossReturn.returned_le_of_net {gross : GrossReturn} {fees : FeeSchedule} {q : SwapQuote}
    (h : gross.net fees = .ok q) (hgross : 0 ≤ gross.amount) : q.returned ≤ gross.amount := by
  obtain ⟨-, -, hcharges, hreturned, -⟩ := net_eq_ok_iff.1 h
  have hcharged : 0 ≤ q.charges.total := hcharges ▸ (fees.charge_nonneg hgross).total
  omega

/-- What leaves the pool is at most the gross return: the swap fee stays. -/
theorem GrossReturn.paid_le_of_net {gross : GrossReturn} {fees : FeeSchedule} {q : SwapQuote}
    (h : gross.net fees = .ok q) (hgross : 0 ≤ gross.amount) :
    q.returned + q.charges.outgoing ≤ gross.amount := by
  obtain ⟨-, -, hcharges, hreturned, -⟩ := net_eq_ok_iff.1 h
  have hswap : 0 ≤ q.charges.swap := hcharges ▸ (fees.charge_nonneg hgross).swap
  rw [Charges.total_eq_swap_add_outgoing] at hreturned
  omega

/-! ## Fees in a gross amount

Each fee is rounded down for itself, so that all of them together are at most the total share. -/

theorem Ratio.mulFloor_mul_unit_le (r : Ratio) (amount : Int) :
    r.mulFloor amount * unit ≤ amount * r.atomics := fdiv_mul_le _ (by decide)

/-- The induction is on the extra shares; `start` is the sum of those before them. -/
private theorem FeeSchedule.extra_mul_unit_le {amount charged : Int} {extra : List Ratio}
    {start : Ratio} (h : charged * Ratio.unit ≤ amount * start.atomics) :
    (charged + sumOf (extra.map fun share => share.mulFloor amount)) * Ratio.unit ≤
      amount * (extra.foldl Ratio.add start).atomics := by
  induction extra generalizing charged start with
  | nil => simpa [sumOf] using h
  | cons share rest ih =>
      have hshare := share.mulFloor_mul_unit_le amount
      have hboth : (charged + share.mulFloor amount) * Ratio.unit ≤
          amount * (start.add share).atomics := by
        rw [Ratio.add, Int.natCast_add, Int.add_mul, Int.mul_add]
        omega
      rw [List.map_cons, sumOf_cons, ← Int.add_assoc]
      exact ih hboth

theorem FeeSchedule.charge_total_mul_unit_le (fees : FeeSchedule) (amount : Int) :
    (fees.charge amount).total * Ratio.unit ≤ amount * fees.total.atomics := by
  apply extra_mul_unit_le
  have hswap := fees.swap.mulFloor_mul_unit_le amount
  have hprotocol := fees.protocol.mulFloor_mul_unit_le amount
  have hburn := fees.burn.mulFloor_mul_unit_le amount
  simp only [Ratio.add, Int.natCast_add, Int.mul_add, Int.add_mul]
  exact Int.add_le_add (Int.add_le_add hswap hprotocol) hburn

/-- Fees that stay below one together leave something of every amount. -/
theorem FeeSchedule.Valid.charge_total_le {fees : FeeSchedule} (h : fees.Valid) {amount : Int}
    (hamount : 0 ≤ amount) : (fees.charge amount).total ≤ amount := by
  have hunit : (0 : Int) < Ratio.unit := by decide
  have hshare : (fees.total.atomics : Int) ≤ Ratio.unit := by
    exact_mod_cast Nat.le_of_lt (Ratio.lt_def.1 h)
  refine Int.le_of_mul_le_mul_right ?_ hunit
  exact Int.le_trans (fees.charge_total_mul_unit_le amount)
    (Int.mul_le_mul_of_nonneg_left hshare hamount)

theorem GrossReturn.exists_net {gross : GrossReturn} {fees : FeeSchedule} (hfees : fees.Valid)
    (hnonneg : 0 ≤ gross.amount) (hmax : gross.amount ≤ maxAmount) :
    ∃ q, gross.net fees = .ok q := by
  have hcharged := (fees.charge_nonneg hnonneg).total
  have hle := hfees.charge_total_le hnonneg
  refine ⟨⟨gross.amount - (fees.charge gross.amount).total, gross.spread,
    fees.charge gross.amount⟩, net_eq_ok_iff.2 ⟨?_, ?_, rfl, rfl, rfl⟩⟩
  · exact Int.sub_nonneg_of_le hle
  · exact Int.le_trans (Int.sub_le_self _ hcharged) hmax

/-- At or above the gross amount of `net`, the fees leave `net`. The fees on a larger amount can
grow by more than the amount does, so this is not the case of the gross amount itself and
monotonicity: it holds because every amount bears at most the total share. -/
theorem grossAmount_covers {fees : FeeSchedule} {net gross amount : Int}
    (h : grossAmount fees net = .ok gross) (hle : gross ≤ amount) :
    net ≤ amount - (fees.charge amount).total := by
  simp only [grossAmount, Ratio.divCeil, Result.bind_eq_ok, Result.guarded_eq_ok,
    Ratio.complement_eq_ok_iff, Except.ok.injEq] at h
  obtain ⟨rest, hrest, hne, rfl⟩ := h
  have hunit : (0 : Int) < Ratio.unit := by decide
  have hpos : (0 : Int) < rest.atomics := by omega
  have hcharged := fees.charge_total_mul_unit_le amount
  have hgross : net * Ratio.unit ≤ amount * rest.atomics :=
    Int.le_trans (Checked.le_ceilQuotient_mul _ hpos)
      (Int.mul_le_mul_of_nonneg_right hle (Int.le_of_lt hpos))
  have hsplit : amount * Ratio.unit = amount * fees.total.atomics + amount * rest.atomics := by
    rw [← Int.mul_add, ← Int.natCast_add, hrest]
  refine Int.le_of_mul_le_mul_right ?_ hunit
  rw [Int.sub_mul]
  omega

/-- The gross amount of `net` is its quotient by what the fees leave of one, rounded up. -/
theorem exists_grossAmount {fees : FeeSchedule} (h : fees.Valid) (net : Int) :
    ∃ gross, grossAmount fees net = .ok gross ∧
      ∀ g, gross ≤ g ↔ net * Ratio.unit ≤ g * (Ratio.unit - fees.total.atomics) := by
  have hlt : fees.total.atomics < Ratio.unit := Ratio.lt_def.1 h
  have hcast : ((Ratio.unit - fees.total.atomics : Nat) : Int) =
      Ratio.unit - fees.total.atomics := Int.natCast_sub (Nat.le_of_lt hlt)
  have hrest : fees.total.complement = .ok ⟨Ratio.unit - fees.total.atomics⟩ :=
    Ratio.complement_eq_ok_iff.2 (Nat.add_sub_cancel' (Nat.le_of_lt hlt))
  refine ⟨Checked.ceilQuotient (net * Ratio.unit) (Ratio.unit - fees.total.atomics), ?_,
    fun g => Checked.ceilQuotient_le_iff (by omega)⟩
  rw [grossAmount, Result.bind_eq_ok]
  refine ⟨_, hrest, ?_⟩
  rw [Ratio.divCeil, if_neg (by dsimp only; omega), hcast]

/-- Where nothing is charged, the gross amount of `net` is not above it. -/
theorem grossAmount_le_of_free {fees : FeeSchedule} {net gross : Int} (hfree : fees.total = .zero)
    (h : grossAmount fees net = .ok gross) : gross ≤ net := by
  have hvalid : fees.Valid := by
    rw [FeeSchedule.Valid, hfree]
    decide
  obtain ⟨gross', h', hleast⟩ := exists_grossAmount hvalid net
  cases h.symm.trans h'
  rw [hleast, hfree]
  simp [Ratio.zero]

theorem grossAmount_nonneg {fees : FeeSchedule} {net gross : Int}
    (h : grossAmount fees net = .ok gross) (hnet : 0 ≤ net) : 0 ≤ gross := by
  simp only [grossAmount, Ratio.divCeil, Result.bind_eq_ok, Result.guarded_eq_ok,
    Except.ok.injEq] at h
  obtain ⟨rest, -, hne, rfl⟩ := h
  have hunit : (0 : Int) ≤ Ratio.unit := by decide
  have hpos : (0 : Int) < rest.atomics := by omega
  exact Checked.ceilQuotient_nonneg hpos (Int.mul_nonneg hnet hunit)

/-- A gross return at or above the gross amount of `ask` pays `ask`. -/
theorem GrossReturn.le_returned {gross : GrossReturn} {fees : FeeSchedule} {q : SwapQuote}
    {ask needed : Int} (h : gross.net fees = .ok q) (hneeded : grossAmount fees ask = .ok needed)
    (hle : needed ≤ gross.amount) : ask ≤ q.returned := by
  obtain ⟨-, -, hcharges, hreturned, -⟩ := net_eq_ok_iff.1 h
  rw [hreturned, hcharges]
  exact grossAmount_covers hneeded hle

/-! ## Quotes on either curve -/

/-- What a quote pays and charges is not below zero. -/
structure SwapQuote.Sound (q : SwapQuote) : Prop where
  returned : 0 ≤ q.returned
  returned_le : q.returned ≤ maxAmount
  charges : q.charges.Nonneg

theorem ConstantProduct.grossReturn_nonneg {offer ask amount : Int} {gross : GrossReturn}
    (h : grossReturn offer ask amount = .ok gross) : 0 ≤ gross.amount := by
  simp only [grossReturn, Result.bind_eq_ok, Checked.sub_eq_ok_iff, Except.ok.injEq] at h
  obtain ⟨_, -, _, ⟨hle, rfl⟩, _, -, rfl⟩ := h
  exact Int.sub_nonneg_of_le hle

theorem StableSwap.grossReturn_nonneg {solver : Solver} {side : Side} {amount : Int}
    {gross : GrossReturn} (h : grossReturn solver side amount = .ok gross) : 0 ≤ gross.amount := by
  simp only [grossReturn, Result.bind_eq_ok, Except.ok.injEq] at h
  obtain ⟨_, -, rfl⟩ := h
  have hunits : ∀ places : Nat, 0 ≤ Precision.unitsPer places :=
    fun places => Int.pow_nonneg (by decide)
  exact Int.fdiv_nonneg (Int.le_max_left _ _) (hunits _)

/-- A quote is a gross return on the curve, less its fees. -/
theorem Market.gross_of_quote {m : Market} {solver : Solver} {amount : Int} {curve : Curve}
    {q : SwapQuote} (h : m.quote solver amount curve = .ok q) :
    ∃ gross : GrossReturn, 0 ≤ gross.amount ∧ gross.net m.fees = .ok q := by
  cases curve with
  | constantProduct =>
      obtain ⟨gross, hgross, hnet⟩ := Result.bind_eq_ok.1 h
      exact ⟨gross, ConstantProduct.grossReturn_nonneg hgross, hnet⟩
  | stableSwap amp =>
      obtain ⟨gross, hgross, hnet⟩ := Result.bind_eq_ok.1 h
      exact ⟨gross, StableSwap.grossReturn_nonneg hgross, hnet⟩

theorem Market.sound_of_quote {m : Market} {solver : Solver} {amount : Int} {curve : Curve}
    {q : SwapQuote} (h : m.quote solver amount curve = .ok q) : q.Sound := by
  obtain ⟨gross, hgross, hnet⟩ := gross_of_quote h
  obtain ⟨hreturned, hmax, hcharges, -, -⟩ := GrossReturn.net_eq_ok_iff.1 hnet
  exact ⟨hreturned, hmax, hcharges ▸ m.fees.charge_nonneg hgross⟩

end MarketMaker
