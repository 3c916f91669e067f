import Mathlib.Topology.Instances.Real.Lemmas
import Mathlib.Topology.Order.IntermediateValue
import MarketMaker.Proofs.StableSwap.Invariant

/-! # Newton's iterates

The iteration for the invariant starts from the sum of the balances and stops at one of its
iterates. Each of them after the first, and not only the one that is answered, is above the exact
invariant less one. -/

namespace MarketMaker.StableSwap

variable {solver : Solver} {amp ann n d e p : Int} {balances : List Int} {steps : Nat}

/-! ## Where the iteration goes -/

/-- The number after some steps from the sum of the balances, whether or not the iteration stops
before. -/
def iterate (amp ann n : Int) (balances : List Int) : Nat → Result Int
  | 0 => .ok (sumOf balances)
  | steps + 1 => do
    let d ← iterate amp ann n balances steps
    invariantStep amp ann n balances d

theorem iterate_succ_eq_ok_iff :
    iterate amp ann n balances (steps + 1) = .ok e ↔
      ∃ d, iterate amp ann n balances steps = .ok d ∧
        invariantStep amp ann n balances d = .ok e := Result.bind_eq_ok

/-- What is answered is an iterate, close to the one before. -/
theorem exists_iterate_of_invariantFrom {fuel : Nat} (hd : iterate amp ann n balances steps = .ok d)
    (he : invariantFrom solver amp ann n balances fuel d = .ok e) :
    ∃ last p, last < steps + fuel ∧ iterate amp ann n balances last = .ok p ∧
      invariantStep amp ann n balances p = .ok e ∧ Checked.absDiff e p ≤ solver.tolerance := by
  induction fuel generalizing steps d with
  | zero => cases he
  | succ fuel ih =>
      rw [invariantFrom, Result.bind_eq_ok] at he
      obtain ⟨next, hnext, hrest⟩ := he
      split at hrest
      · cases hrest
        exact ⟨steps, d, by omega, hd, hnext, ‹_›⟩
      · obtain ⟨last, p, hlast, hp⟩ := ih (iterate_succ_eq_ok_iff.2 ⟨d, hd, hnext⟩) hrest
        exact ⟨last, p, by omega, hp⟩

/-- The last step of an iteration that is answered with `e`, from the iterate `p`. -/
structure LastStep (solver : Solver) (amp n : Int) (balances : List Int) (p e : Int) : Prop where
  reached : ∃ steps, steps < solver.maxIterations.toNat ∧
    iterate amp (amp * n ^ n.toNat) n balances steps = .ok p
  step : invariantStep amp (amp * n ^ n.toNat) n balances p = .ok e
  rise : e - p ≤ solver.tolerance
  fall : p - e ≤ solver.tolerance

theorem exists_lastStep (hn : 0 ≤ n) (hne : balances ≠ []) (h : ∀ x ∈ balances, 0 < x)
    (he : invariantOf solver amp n balances = .ok e) : ∃ p, LastStep solver amp n balances p e := by
  have hsum := sumOf_pos hne h
  rw [invariantOf, if_neg (by omega)] at he
  obtain ⟨a, ha, hfrom⟩ := Result.bind_eq_ok.1 he
  obtain rfl := (ann_eq_ok hn).1 ha
  have hstart : iterate amp (amp * n ^ n.toNat) n balances 0 = .ok (sumOf balances) := rfl
  obtain ⟨last, p, hlast, hp, hstep, hclose⟩ := exists_iterate_of_invariantFrom hstart hfrom
  rw [Checked.absDiff] at hclose
  exact ⟨p, ⟨last, by omega, hp⟩, hstep, by omega, by omega⟩

theorem iterate_nonneg (hann : 0 ≤ ann) (hn : 0 < n) (h : ∀ x ∈ balances, 0 < x)
    (hd : iterate amp ann n balances steps = .ok d) : 0 ≤ d := by
  induction steps generalizing d with
  | zero =>
      cases hd
      exact sumOf_nonneg fun x hx => Int.le_of_lt (h x hx)
  | succ steps ih =>
      obtain ⟨p, hp, hstep⟩ := iterate_succ_eq_ok_iff.1 hd
      exact step_nonneg hann hn (ih hp) h hstep

theorem LastStep.tolerance_nonneg (hlast : LastStep solver amp n balances p e) :
    0 ≤ solver.tolerance := by
  have hrise := hlast.rise
  have hfall := hlast.fall
  omega

theorem LastStep.nonneg (hlast : LastStep solver amp n balances p e) (hamp : 1 ≤ amp) (hn : 0 < n)
    (h : ∀ x ∈ balances, 0 < x) : 0 ≤ p := by
  have hann : 1 ≤ amp * n ^ n.toNat := one_le_ann hamp hn
  obtain ⟨steps, -, hp⟩ := hlast.reached
  exact iterate_nonneg (by omega) hn h hp

/-! ## The exact invariant lies below -/

/-- The exact invariant is below what is answered, but for what damped steps cost. -/
theorem not_covers_invariantOf (hamp : 1 ≤ amp) (hnpos : 0 < n) (hn : balances.length ≤ n)
    (hne : balances ≠ []) (h : ∀ x ∈ balances, 0 < x)
    (hd : invariantOf solver amp n balances = .ok d) :
    ¬Covers (amp * n ^ n.toNat) n balances
      (d + 1 + (n - balances.length) * (solver.tolerance + 1)) := by
  have hann : 1 ≤ amp * n ^ n.toNat := one_le_ann hamp hnpos
  obtain ⟨p, hlast⟩ := exists_lastStep (Int.le_of_lt hnpos) hne h hd
  have htolerance := hlast.tolerance_nonneg
  have hrise := hlast.rise
  exact not_covers_damped_step hann hnpos hn (hlast.nonneg hamp hnpos h) h hlast.step (by omega)
    (by omega)

/-- The computed invariant, and one more, exceeds the exact one. -/
theorem not_covers_invariant (hamp : 1 ≤ amp) (hne : balances ≠ []) (h : ∀ x ∈ balances, 0 < x)
    (hd : invariant solver amp balances = .ok d) :
    ¬Covers (amp * (balances.length : Int) ^ balances.length) balances.length balances (d + 1) := by
  have hlength : 0 < balances.length := List.length_pos_iff.2 hne
  have hexceeds := not_covers_invariantOf hamp (by omega) (Int.le_refl _) hne h hd
  rwa [Int.sub_self, Int.zero_mul, Int.add_zero] at hexceeds

def annOf (amp : Int) (balances : List Int) : Int :=
  amp * (balances.length : Int) ^ balances.length

/-- The product of the balances, times the power of their number that comes with it. -/
def scaledProduct (balances : List Int) : Int :=
  (balances.length : Int) ^ balances.length * balances.prod

/-- The exact invariant of the balances. -/
def IsExact (amp : Int) (balances : List Int) (r : ℝ) : Prop :=
  0 < r ∧ (annOf amp balances - 1) * r * scaledProduct balances + r ^ (balances.length + 1) =
    annOf amp balances * sumOf balances * scaledProduct balances

/-- The polynomial of the invariant is above its value at the root. -/
def ExceedsExact (amp : Int) (balances : List Int) (e : Int) : Prop :=
  annOf amp balances * sumOf balances * scaledProduct balances <
    (annOf amp balances - 1) * e * scaledProduct balances + e ^ (balances.length + 1)

theorem scale_eq_pow_mul_prod (n : Int) (balances : List Int) :
    scale n balances = n ^ balances.length * balances.prod := by
  induction balances with
  | nil => simp [scale]
  | cons x rest ih =>
      rw [scale_cons, ih, List.length_cons, List.prod_cons]
      ring

theorem exceedsExact_iff :
    ExceedsExact amp balances e ↔ ¬Covers (annOf amp balances) balances.length balances e := by
  rw [ExceedsExact, Covers, scale_eq_pow_mul_prod, Int.not_le, ← scaledProduct]
  constructor
  · intro h
    linarith
  · intro h
    linarith

theorem scaledProduct_pos (hne : balances ≠ []) (h : ∀ x ∈ balances, 0 < x) :
    0 < scaledProduct balances := by
  have hlength : 0 < balances.length := List.length_pos_iff.2 hne
  rw [scaledProduct, ← scale_eq_pow_mul_prod]
  exact scale_pos (by omega) h

/-- The polynomial of the invariant rises from zero on. -/
theorem strictMonoOn_polynomial {slope product : ℝ} (hslope : 0 ≤ slope) (hproduct : 0 ≤ product)
    (k : Nat) : StrictMonoOn (fun r => slope * r * product + r ^ (k + 1)) (Set.Ici 0) := by
  intro r hr r' _ hlt
  have hr' : 0 ≤ r := hr
  have hlinear : slope * r * product ≤ slope * r' * product := by gcongr
  have hpower : r ^ (k + 1) < r' ^ (k + 1) := by gcongr
  exact add_lt_add_of_le_of_lt hlinear hpower

theorem exists_polynomial_eq {slope product value : ℝ} (hslope : 0 ≤ slope)
    (hproduct : 0 ≤ product) (hvalue : 0 < value) (k : Nat) :
    ∃ r, 0 < r ∧ slope * r * product + r ^ (k + 1) = value := by
  have hcontinuous : Continuous fun r : ℝ => slope * r * product + r ^ (k + 1) := by fun_prop
  have hzero : slope * 0 * product + (0 : ℝ) ^ (k + 1) < value := by
    simpa using hvalue
  have hlinear : 0 ≤ slope * (value + 1) * product := by positivity
  have hpower : value + 1 ≤ (value + 1) ^ (k + 1) := le_self_pow₀ (by linarith) (by omega)
  obtain ⟨r, ⟨hle, -⟩, hroot⟩ := intermediate_value_Icc (show 0 ≤ value + 1 by linarith)
    hcontinuous.continuousOn ⟨le_of_lt hzero, by linarith⟩
  refine ⟨r, lt_of_le_of_ne hle ?_, hroot⟩
  rintro rfl
  exact hzero.ne hroot

theorem slope_nonneg (hann : 1 ≤ annOf amp balances) : (0 : ℝ) ≤ annOf amp balances - 1 := by
  have hone : (1 : ℝ) ≤ annOf amp balances := by exact_mod_cast hann
  linarith

/-- Balances have one exact invariant. -/
theorem existsUnique_isExact (hamp : 1 ≤ amp) (hne : balances ≠ []) (h : ∀ x ∈ balances, 0 < x) :
    ∃! r, IsExact amp balances r := by
  have hlength : 0 < balances.length := List.length_pos_iff.2 hne
  have hann : 1 ≤ annOf amp balances := one_le_ann hamp (by omega)
  have hslope := slope_nonneg hann
  have hproduct : (0 : ℝ) < scaledProduct balances := by exact_mod_cast scaledProduct_pos hne h
  have hsum : (0 : ℝ) < sumOf balances := by exact_mod_cast sumOf_pos hne h
  have hannPos : (0 : ℝ) < annOf amp balances := by linarith
  obtain ⟨r, hpos, hroot⟩ := exists_polynomial_eq hslope (le_of_lt hproduct)
    (mul_pos (mul_pos hannPos hsum) hproduct) balances.length
  refine ⟨r, ⟨hpos, hroot⟩, fun r' hr' => ?_⟩
  exact (strictMonoOn_polynomial hslope (le_of_lt hproduct) balances.length).injOn
    (le_of_lt hr'.1) (le_of_lt hpos) (hr'.2.trans hroot.symm)

/-- The root lies below every number at which the polynomial is above its value there. -/
theorem ExceedsExact.lt (h : ExceedsExact amp balances e) (hann : 1 ≤ annOf amp balances)
    (hproduct : 0 ≤ scaledProduct balances) (he : 0 ≤ e) {r : ℝ} (hr : IsExact amp balances r) :
    r < e := by
  obtain ⟨hpos, hroot⟩ := hr
  have hexceeds : (annOf amp balances * sumOf balances * scaledProduct balances : ℝ) <
      (annOf amp balances - 1) * e * scaledProduct balances + e ^ (balances.length + 1) := by
    exact_mod_cast h
  rw [← hroot] at hexceeds
  have hproduct' : (0 : ℝ) ≤ scaledProduct balances := by exact_mod_cast hproduct
  have he' : (0 : ℝ) ≤ e := by exact_mod_cast he
  exact ((strictMonoOn_polynomial (slope_nonneg hann) hproduct' balances.length).lt_iff_lt
    (le_of_lt hpos) he').1 hexceeds

/-- After every step of the iteration, and so where it stops, one more than the computed invariant
exceeds the exact one. -/
theorem exact_lt_computed (hamp : 1 ≤ amp) (hn : 2 ≤ balances.length)
    (h : ∀ x ∈ balances, 0 < x) :
    (∃! r, IsExact amp balances r) ∧
    (∀ steps d, iterate amp (annOf amp balances) balances.length balances (steps + 1) = .ok d →
      ExceedsExact amp balances (d + 1) ∧ ∀ r, IsExact amp balances r → r < d + 1) ∧
    ∀ solver d, invariant solver amp balances = .ok d →
      ExceedsExact amp balances (d + 1) ∧ ∀ r, IsExact amp balances r → r < d + 1 := by
  have hne : balances ≠ [] := List.length_pos_iff.1 (by omega)
  have hann : 1 ≤ annOf amp balances := one_le_ann hamp (by omega)
  have hiterates : ∀ steps d,
      iterate amp (annOf amp balances) balances.length balances (steps + 1) = .ok d →
        ExceedsExact amp balances (d + 1) ∧ ∀ r, IsExact amp balances r → r < d + 1 := by
    intro steps d hd
    obtain ⟨p, hp, hstep⟩ := iterate_succ_eq_ok_iff.1 hd
    have hp' := iterate_nonneg (by omega) (by omega) h hp
    have hd' := step_nonneg (by omega) (by omega) hp' h hstep
    have hexceeds := exceedsExact_iff.2 (not_covers_step hann hne hp' h hstep)
    refine ⟨hexceeds, fun r hr => ?_⟩
    have hlt := hexceeds.lt hann (Int.le_of_lt (scaledProduct_pos hne h)) (by omega) hr
    rwa [Int.cast_add, Int.cast_one] at hlt
  refine ⟨existsUnique_isExact hamp hne h, hiterates, fun solver d hd => ?_⟩
  obtain ⟨p, hlast⟩ := exists_lastStep (by omega) hne h hd
  obtain ⟨steps, -, hp⟩ := hlast.reached
  exact hiterates steps d (iterate_succ_eq_ok_iff.2 ⟨p, hp, hlast.step⟩)

/-- A pool with little of one asset and much of the other, where the iteration takes many steps. -/
theorem exact_lt_computed_skewed :
    invariant {} 1 [1, 584] = .ok 162 ∧ ∃ r, IsExact 1 [1, 584] r ∧ r < 163 := by
  have hd : invariant {} 1 [1, 584] = .ok 162 := rfl
  obtain ⟨⟨r, hr, -⟩, -, hcomputed⟩ :=
    @exact_lt_computed 1 [1, 584] (by decide) (by decide) (by decide)
  have hlt := (hcomputed {} 162 hd).2 r hr
  refine ⟨hd, r, hr, ?_⟩
  norm_num at hlt
  exact hlt

end MarketMaker.StableSwap
