import MarketMaker.Proofs.Sequence

/-! # Which way roundings go -/

namespace MarketMaker

/-! ## Quotients -/

theorem le_fdiv_iff {a b c : Int} (h : 0 < b) : c ≤ a.fdiv b ↔ c * b ≤ a := by
  rw [Int.fdiv_eq_ediv_of_nonneg _ (Int.le_of_lt h), Int.le_ediv_iff_mul_le h]

theorem fdiv_lt_iff {a b c : Int} (h : 0 < b) : a.fdiv b < c ↔ a < c * b := by
  rw [← Int.not_le, le_fdiv_iff h, Int.not_le]

theorem fdiv_mul_le (a : Int) {b : Int} (h : 0 < b) : a.fdiv b * b ≤ a :=
  (le_fdiv_iff h).1 (Int.le_refl _)

namespace Checked

theorem le_ceilQuotient_mul (a : Int) {b : Int} (h : 0 < b) : a ≤ ceilQuotient a b * b := by
  have hfloor := fdiv_mul_le (-a) h
  rw [ceilQuotient, Int.neg_mul]
  omega

theorem ceilQuotient_nonneg {a b : Int} (h : 0 < b) (ha : 0 ≤ a) : 0 ≤ ceilQuotient a b := by
  have hreached := Int.le_trans ha (le_ceilQuotient_mul a h)
  exact Int.nonneg_of_mul_nonneg_left hreached h

/-- The rounded quotient is the least integer whose multiple reaches the number. -/
theorem ceilQuotient_le {a b c : Int} (h : 0 < b) (hle : a ≤ c * b) : ceilQuotient a b ≤ c := by
  have hfloor : -c ≤ (-a).fdiv b := by
    rw [le_fdiv_iff h, Int.neg_mul]
    omega
  rw [ceilQuotient]
  omega

theorem ceilQuotient_le_iff {a b c : Int} (h : 0 < b) : ceilQuotient a b ≤ c ↔ a ≤ c * b := by
  constructor
  · intro hle
    calc a ≤ ceilQuotient a b * b := le_ceilQuotient_mul a h
      _ ≤ c * b := Int.mul_le_mul_of_nonneg_right hle (Int.le_of_lt h)
  · exact ceilQuotient_le h

theorem divCeil_eq_ok_iff {a b c : Int} : divCeil a b = .ok c ↔ b ≠ 0 ∧ c = ceilQuotient a b := by
  rw [divCeil, Result.guarded_eq_ok, Except.ok.injEq, eq_comm (a := c)]

theorem mulDiv_eq_ok_iff {a m b c : Int} : mulDiv a m b = .ok c ↔ b ≠ 0 ∧ c = (a * m).fdiv b :=
  div_eq_ok_iff

/-! ### What checked operations raise -/

variable {a b m : Int} {kind : FaultKind}

theorem sub_raises_iff : (sub a b).Raises kind ↔ a < b ∧ .underflow = kind := by
  simp only [sub, Result.guarded_raises_iff, Result.not_raises_ok, and_false, or_false,
    Fault.kind]
  exact and_congr_left fun _ => by omega

theorem div_raises_iff : (div a b).Raises kind ↔ b = 0 ∧ .divisionByZero = kind := by
  simp only [div, Result.guarded_raises_iff, Result.not_raises_ok, and_false, or_false, Fault.kind]

theorem divCeil_raises_iff : (divCeil a b).Raises kind ↔ b = 0 ∧ .divisionByZero = kind := by
  simp only [divCeil, Result.guarded_raises_iff, Result.not_raises_ok, and_false, or_false,
    Fault.kind]

theorem mulDiv_raises_iff : (mulDiv a m b).Raises kind ↔ b = 0 ∧ .divisionByZero = kind :=
  div_raises_iff

theorem narrow_raises_iff :
    (narrow a).Raises kind ↔ (a < 0 ∨ maxAmount < a) ∧ .conversionOverflow = kind := by
  simp only [narrow, Result.guarded_raises_iff, Result.not_raises_ok, and_false, or_false,
    Fault.kind]
  by_cases h : a < 0
  · simp [h]
  · simp [h]

/-! ### Roots -/

/-- The root is the largest integer whose square the number reaches. -/
theorem sqrt_eq_ok_iff {a r : Int} :
    sqrt a = .ok r ↔ 0 ≤ a ∧ 0 ≤ r ∧ r * r ≤ a ∧ a < (r + 1) * (r + 1) := by
  rw [sqrt, Result.guarded_eq_ok, Except.ok.injEq, Int.not_lt]
  obtain ⟨hle, hlt⟩ := isqrt_spec a.toNat
  constructor
  · rintro ⟨ha, rfl⟩
    have hcast : (a.toNat : Int) = a := Int.toNat_of_nonneg ha
    refine ⟨ha, Int.natCast_nonneg _, ?_, ?_⟩
    · rw [← hcast]
      exact_mod_cast hle
    · rw [← hcast]
      exact_mod_cast hlt
  · rintro ⟨ha, hr, hle', hlt'⟩
    obtain ⟨n, rfl⟩ := Int.eq_ofNat_of_zero_le ha
    obtain ⟨k, rfl⟩ := Int.eq_ofNat_of_zero_le hr
    refine ⟨ha, ?_⟩
    have hk : k * k ≤ n := by exact_mod_cast hle'
    have hn : n < (k + 1) * (k + 1) := by exact_mod_cast hlt'
    rw [Int.toNat_natCast] at hle hlt ⊢
    have hlow : isqrt n < k + 1 := Nat.mul_self_lt_mul_self_iff.1 (by omega)
    have hhigh : k < isqrt n + 1 := Nat.mul_self_lt_mul_self_iff.1 (by omega)
    omega

end Checked

end MarketMaker
