import MarketMaker.Proofs.StableSwap.Truncation

/-! # The invariant and the order of the balances

The product term is divided by the balances in their order, and what the floors take off it depends
on the order. So the computed invariant of the same balances can differ from one order to another,
and the iteration can settle in one of them only. The order enters nowhere else, and two results
stay close: both lie about the exact invariant, which has no order. -/

namespace MarketMaker.StableSwap

variable {solver : Solver} {amp ann n d e : Int} {balances balances' : List Int}

/-! ## What has no order -/

theorem filled_perm (h : balances.Perm balances') (n d : Int) :
    filled n balances d = filled n balances' d := (h.map _).prod_eq

theorem scale_perm (h : balances.Perm balances') (n : Int) :
    scale n balances = scale n balances' := by
  rw [← filled_zero, ← filled_zero, filled_perm h]

theorem shortfall_perm (h : balances.Perm balances') (n d : Int) :
    shortfall n balances d = shortfall n balances' d := by
  rw [shortfall, shortfall, filled_perm h, h.length_eq]

theorem covers_perm (h : balances.Perm balances') :
    Covers ann n balances d ↔ Covers ann n balances' d := by
  rw [Covers, Covers, h.length_eq, scale_perm h, sumOf_perm h]

/-! ## Runs with the same product terms -/

theorem invariantStep_congr (h : balances.Perm balances')
    (hterm : productTerm n d balances = productTerm n d balances') :
    invariantStep amp ann n balances d = invariantStep amp ann n balances' d := by
  rw [invariantStep, invariantStep, hterm, sumOf_perm h]

/-- The iterates that the iteration steps from: the sum of the balances, and whatever a step ends at
that is not close to where it started. -/
inductive StepsFrom (solver : Solver) (amp ann n : Int) (balances : List Int) : Nat → Int → Prop
  | start : StepsFrom solver amp ann n balances 0 (sumOf balances)
  | next {steps : Nat} {d e : Int} (before : StepsFrom solver amp ann n balances steps d)
      (step : invariantStep amp ann n balances d = .ok e)
      (far : solver.tolerance < Checked.absDiff e d) :
      StepsFrom solver amp ann n balances (steps + 1) e

theorem invariantFrom_congr (h : balances.Perm balances') {bound : Nat}
    (hterms : ∀ steps d, steps < bound → StepsFrom solver amp ann n balances steps d →
      productTerm n d balances = productTerm n d balances')
    {fuel steps : Nat} (hbound : steps + fuel ≤ bound)
    (hd : StepsFrom solver amp ann n balances steps d) :
    invariantFrom solver amp ann n balances fuel d =
      invariantFrom solver amp ann n balances' fuel d := by
  induction fuel generalizing steps d with
  | zero => rfl
  | succ fuel ih =>
      rw [invariantFrom, invariantFrom,
        ← invariantStep_congr h (hterms steps d (by omega) hd)]
      cases hstep : invariantStep amp ann n balances d with
      | error e => rfl
      | ok next =>
          change (if _ then _ else _) = (if _ then _ else _)
          by_cases hclose : Checked.absDiff next d ≤ solver.tolerance
          · rw [if_pos hclose, if_pos hclose]
          · rw [if_neg hclose, if_neg hclose]
            exact ih (by omega) (.next hd hstep (by omega))

theorem invariantOf_congr (h : balances.Perm balances') (hn : 0 ≤ n)
    (hterms : ∀ steps d, steps < solver.maxIterations.toNat →
      StepsFrom solver amp (amp * n ^ n.toNat) n balances steps d →
        productTerm n d balances = productTerm n d balances') :
    invariantOf solver amp n balances = invariantOf solver amp n balances' := by
  have hann : StableSwap.ann amp n = .ok (amp * n ^ n.toNat) := (ann_eq_ok hn).2 rfl
  rw [invariantOf, invariantOf, ← sumOf_perm h, hann]
  split
  · rfl
  · exact invariantFrom_congr h hterms (by omega) .start

/-! ## What is computed, from above -/

/-- Where the slope of a step is at least `z`, the product term's exact value at `z` is below what
is left of the sum for it, but for the shortfall. -/
theorem pow_le_of_slope {k : Nat} {d slope w t z place short : Int} (hd : 0 < d) (hz : 0 ≤ z)
    (hzd : z ≤ d) (hzslope : z ≤ slope) (hplace : 0 < place) (hshort : 0 ≤ short)
    (hterm : d ^ (k + 1) ≤ t * place + short) (hslope : t * slope ≤ d * w) (ht : 0 ≤ t) :
    z ^ (k + 1) ≤ place * w + short := by
  by_cases hsteep : d ≤ slope
  · have htw : t ≤ w := by
      refine Int.le_of_mul_le_mul_left ?_ hd
      calc d * t = t * d := Int.mul_comm _ _
        _ ≤ t * slope := Int.mul_le_mul_of_nonneg_left hsteep ht
        _ ≤ d * w := hslope
    calc z ^ (k + 1) ≤ d ^ (k + 1) := pow_le_pow_left₀ hz hzd _
      _ ≤ t * place + short := hterm
      _ ≤ place * w + short := by
          have hmul := Int.mul_le_mul_of_nonneg_left htw (Int.le_of_lt hplace)
          linarith
  · have hflat : 0 ≤ short * (d - slope) := Int.mul_nonneg hshort (by omega)
    have hpow : z ^ k ≤ d ^ k := pow_le_pow_left₀ hz hzd _
    have hscaled := Int.mul_le_mul_of_nonneg_left hslope (Int.le_of_lt hplace)
    have hexact := Int.mul_le_mul_of_nonneg_right hterm (Int.le_trans hz hzslope)
    refine Int.le_of_mul_le_mul_left ?_ hd
    calc d * z ^ (k + 1) = d * (z ^ k * z) := by rw [pow_succ]
      _ ≤ d * (d ^ k * slope) := Int.mul_le_mul_of_nonneg_left
          (Int.mul_le_mul hpow hzslope hz (pow_nonneg (Int.le_of_lt hd) _)) (Int.le_of_lt hd)
      _ = d ^ (k + 1) * slope := by ring
      _ ≤ d * (place * w + short) := by linarith

/-- What a step computes is below the exact invariant, but for the shortfall and for `n` times how
far it went. -/
theorem pow_le_of_step {z reach : Int} (hn : 0 < n) (hne : balances ≠ [])
    (h : ∀ x ∈ balances, 0 < x) (hd : 0 ≤ d) (he : invariantStep amp ann n balances d = .ok e)
    (hup : e - d ≤ reach) (hdown : d - e ≤ reach) (hz : 0 ≤ z) (hle : z + n * reach ≤ e) :
    z ^ (balances.length + 1) ≤
      scale n balances * (ann * sumOf balances - (ann - 1) * e) + shortfall n balances d := by
  have hdpos := pos_of_step hn hd h he
  obtain ⟨t, hterm, hden, hquotient⟩ := invariantStep_eq_ok_iff.1 he
  have hfloor := fdiv_mul_le ((ann * sumOf balances + t * n) * d) hden
  rw [← hquotient] at hfloor
  have hreach : reach ≤ n * reach := le_mul_of_one_le_left (by omega) hn
  have hback : n * (d - e) ≤ n * reach := Int.mul_le_mul_of_nonneg_left hdown (by omega)
  have hslope : t * (e - n * (d - e)) ≤ d * (ann * sumOf balances - (ann - 1) * e) := by linarith
  exact pow_le_of_slope hdpos hz (by omega) (by omega) (scale_pos hn h) (shortfall_nonneg hn hd h)
    (Int.le_of_lt (lt_productTerm hn hdpos hne h hterm)) hslope (productTerm_le hn hd h hterm).1

/-! ## Two orders of the same balances -/

theorem shortfall_pos (hn : 0 < n) (hd : 0 ≤ d) (hne : balances ≠ [])
    (h : ∀ x ∈ balances, 0 < x) : 0 < shortfall n balances d := by
  obtain ⟨x, rest, rfl⟩ := List.exists_cons_of_ne_nil hne
  rw [List.forall_mem_cons] at h
  have hrest := Int.mul_nonneg hd (shortfall_nonneg hn hd h.2)
  have hhead := Int.mul_pos (Int.mul_pos h.1 hn) (filled_pos hn hd h.2)
  rw [shortfall_cons]
  omega

/-- The product terms of two orders differ by less than the shortfall. -/
theorem productTerm_close (hperm : balances.Perm balances') (hn : 0 < n) (hd : 0 < d)
    (hne : balances ≠ []) (h : ∀ x ∈ balances, 0 < x) {t t' : Int}
    (ht : productTerm n d balances = .ok t) (ht' : productTerm n d balances' = .ok t') :
    |t - t'| * scale n balances < shortfall n balances d := by
  have hne' : balances' ≠ [] := fun hnil => hne (hnil ▸ hperm).eq_nil
  have h' : ∀ x ∈ balances', 0 < x := fun x hx => h x (hperm.mem_iff.2 hx)
  have hle := (productTerm_le hn (Int.le_of_lt hd) h ht).2
  have hle' := (productTerm_le hn (Int.le_of_lt hd) h' ht').2
  have hlt := lt_productTerm hn hd hne h ht
  have hlt' := lt_productTerm hn hd hne' h' ht'
  rw [← hperm.length_eq, ← scale_perm hperm] at hle' hlt'
  rw [← shortfall_perm hperm] at hlt'
  rw [← abs_of_pos (scale_pos hn h), ← abs_mul, abs_lt, Int.sub_mul]
  omega

/-- A number that the exact invariant is below, and one that it is above but for the shortfall: the
polynomial does not let them lie far apart. -/
theorem close_of_covers {high low short : Int} (hann : 1 ≤ ann) (hscale : 0 < scale n balances)
    (hshort : 0 < short) (hlow : 0 ≤ low) (habove : ¬Covers ann n balances low)
    (hbelow : 0 ≤ high → high ^ (balances.length + 1) ≤
      scale n balances * (ann * sumOf balances - (ann - 1) * high) + short) :
    (high - low) * ((ann - 1) * scale n balances +
      (balances.length + 1) * low ^ balances.length) < short := by
  have hpow : 0 ≤ low ^ balances.length := pow_nonneg hlow _
  have hfactor : 0 ≤ (ann - 1) * scale n balances +
      (balances.length + 1) * low ^ balances.length :=
    Int.add_nonneg (Int.mul_nonneg (by omega) (Int.le_of_lt hscale)) (by positivity)
  by_cases hle : high ≤ low
  · exact Int.lt_of_le_of_lt (Int.mul_nonpos_of_nonpos_of_nonneg (by omega) hfactor) hshort
  · have hupper := hbelow (by omega)
    have htangent := tangent_le_pow balances.length hlow (show 0 ≤ high by omega)
    rw [Covers, Int.not_le, pow_succ] at habove
    linarith

/-- The exact invariant is above what is answered, but for the tolerance and the shortfall. -/
theorem pow_le_of_invariantOf (hamp : 1 ≤ amp) (hnpos : 0 < n) (hne : balances ≠ [])
    (h : ∀ x ∈ balances, 0 < x) (hd : invariantOf solver amp n balances = .ok d)
    (hhigh : 0 ≤ d - n * solver.tolerance) :
    (d - n * solver.tolerance) ^ (balances.length + 1) ≤
      scale n balances * (amp * n ^ n.toNat * sumOf balances -
        (amp * n ^ n.toNat - 1) * (d - n * solver.tolerance)) +
      shortfall n balances (d + solver.tolerance) := by
  have hann : 1 ≤ amp * n ^ n.toNat := one_le_ann hamp hnpos
  obtain ⟨p, hlast⟩ := exists_lastStep (Int.le_of_lt hnpos) hne h hd
  have hp := hlast.nonneg hamp hnpos h
  have hfall := hlast.fall
  have hupper := pow_le_of_step hnpos hne h hp hlast.step hlast.rise hfall hhigh (by omega)
  have hshort := shortfall_mono hnpos hp h (show p ≤ d + solver.tolerance by omega)
  have hreach : 0 ≤ n * solver.tolerance :=
    Int.mul_nonneg (Int.le_of_lt hnpos) hlast.tolerance_nonneg
  have hlinear : 0 ≤ scale n balances * ((amp * n ^ n.toNat - 1) * (n * solver.tolerance)) :=
    Int.mul_nonneg (Int.le_of_lt (scale_pos hnpos h)) (Int.mul_nonneg (by omega) hreach)
  linarith

/-- The order of the balances matters through the product term only: where its values agree at every
iterate that one order steps from, the other order has the same outcome. Its values in two orders
are close, and so are two results. -/
theorem same_or_close_of_perm (hperm : balances.Perm balances') (hamp : 1 ≤ amp)
    (hcount : 2 ≤ balances.length) (hn : balances.length ≤ n) (h : ∀ x ∈ balances, 0 < x) :
    ((∀ steps d, steps < solver.maxIterations.toNat →
        StepsFrom solver amp (amp * n ^ n.toNat) n balances steps d →
          productTerm n d balances = productTerm n d balances') →
      invariantOf solver amp n balances = invariantOf solver amp n balances') ∧
    (∀ d t t', 0 < d → productTerm n d balances = .ok t → productTerm n d balances' = .ok t' →
      |t - t'| * scale n balances < shortfall n balances d) ∧
    ∀ d d', invariantOf solver amp n balances = .ok d →
      invariantOf solver amp n balances' = .ok d' →
      let low := d' + 1 + (n - balances.length) * (solver.tolerance + 1)
      let high := d - n * solver.tolerance
      (high - low) * ((amp * n ^ n.toNat - 1) * scale n balances +
          (balances.length + 1) * low ^ balances.length) <
        shortfall n balances (d + solver.tolerance) := by
  have hnpos : 0 < n := by omega
  have hne : balances ≠ [] := List.length_pos_iff.1 (by omega)
  have hne' : balances' ≠ [] := fun hnil => hne (hnil ▸ hperm).eq_nil
  have h' : ∀ x ∈ balances', 0 < x := fun x hx => h x (hperm.mem_iff.2 hx)
  refine ⟨invariantOf_congr hperm (Int.le_of_lt hnpos),
    fun d t t' hd => productTerm_close hperm hnpos hd hne h, ?_⟩
  intro d d' hd hd'
  dsimp only
  have hbelow := not_covers_invariantOf hamp hnpos (hperm.length_eq ▸ hn) hne' h' hd'
  rw [← covers_perm hperm, ← hperm.length_eq] at hbelow
  obtain ⟨p, hlast⟩ := exists_lastStep (Int.le_of_lt hnpos) hne h hd
  have htolerance := hlast.tolerance_nonneg
  have hnonneg := invariantOf_nonneg hamp hnpos (fun x hx => Int.le_of_lt (h x hx)) hd
  have hnonneg' := invariantOf_nonneg hamp hnpos (fun x hx => Int.le_of_lt (h' x hx)) hd'
  have hdamped : 0 ≤ (n - balances.length) * (solver.tolerance + 1) :=
    Int.mul_nonneg (by omega) (by omega)
  exact close_of_covers (one_le_ann hamp hnpos) (scale_pos hnpos h)
    (shortfall_pos hnpos (by omega) hne h) (by omega) hbelow
    (pow_le_of_invariantOf hamp hnpos hne h hd)

/-- The iteration of these two balances stops at their sum. -/
theorem eq_of_stepsFrom_one_two {steps : Nat} (h : StepsFrom {} 1 4 2 [1, 2] steps d) : d = 3 := by
  induction h with
  | start => rfl
  | next before step far ih =>
      subst ih
      cases step
      exact absurd far (by decide)

/-- Two balances with one outcome, and two whose orders are far apart. -/
theorem same_or_close_of_swap :
    invariantOf {} 1 2 [1, 2] = invariantOf {} 1 2 [2, 1] ∧
      pairInvariant {} 1 2 401235835896697244 60313 = .ok 53756242026163 ∧
      pairInvariant {} 1 2 60313 401235835896697244 = .ok 53756242021190 ∧
      (4970 : Int) * (3 * scale 2 [401235835896697244, 60313] + 3 * 53756242021191 ^ 2) <
        shortfall 2 [401235835896697244, 60313] 53756242026164 := by
  have hfirst : pairInvariant {} 1 2 401235835896697244 60313 = .ok 53756242026163 := by
    decide +kernel
  have hsecond : pairInvariant {} 1 2 60313 401235835896697244 = .ok 53756242021190 := by
    decide +kernel
  have hsame := (@same_or_close_of_perm {} 1 2 [1, 2] [2, 1] (.swap 2 1 []) (by decide)
    (by decide) (by decide) (by decide)).1
  have hclose := (@same_or_close_of_perm {} 1 2 _ _ (.swap 60313 401235835896697244 [])
    (by decide) (by decide) (by decide) (by decide)).2.2 _ _ hfirst hsecond
  refine ⟨hsame ?_, hfirst, hsecond, hclose⟩
  intro steps d _ hd
  obtain rfl := eq_of_stepsFrom_one_two hd
  rfl

/-- The results of two orders differ, and the iteration can settle in one of them alone. -/
theorem invariant_depends_on_order :
    pairInvariant {} 1 2 1 3 = .ok 3 ∧ pairInvariant {} 1 2 3 1 = .ok 4 ∧
      pairInvariant {} 1 2 1 584 = .ok 162 ∧
      pairInvariant {} 1 2 584 1 = fail (.invariantUnsettled 64) ∧
      invariant {} 1 [1, 3] = .ok 3 ∧ invariant {} 1 [3, 1] = .ok 4 := by
  decide +kernel

end MarketMaker.StableSwap
