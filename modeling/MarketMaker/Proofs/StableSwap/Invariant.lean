import Mathlib.Tactic.Linarith
import Mathlib.Tactic.Positivity
import Mathlib.Tactic.Ring
import MarketMaker.Proofs.Rounding
import MarketMaker.StableSwap.Invariant

/-! # The exact invariant and the computed one

The exact invariant of balances is the root of a polynomial. To compare a whole number with it, the
polynomial is evaluated there, so that no root has to be taken. Wherever a step of Newton's
iteration starts, what it computes is above the exact invariant less one. -/

namespace MarketMaker.StableSwap

/-! ## The exact invariant -/

/-- The balances' product, with a factor `n` for each. -/
def scale (n : Int) (balances : List Int) : Int := balances.foldr (fun x rest => x * n * rest) 1

/-- The exact invariant of the balances is at least `d`. -/
def Covers (ann n : Int) (balances : List Int) (d : Int) : Prop :=
  d ^ (balances.length + 1) ≤ scale n balances * (ann * sumOf balances - (ann - 1) * d)

instance (ann n : Int) (balances : List Int) (d : Int) : Decidable (Covers ann n balances d) :=
  inferInstanceAs (Decidable (_ ≤ _))

theorem scale_cons (n x : Int) (rest : List Int) : scale n (x :: rest) = x * n * scale n rest := rfl

theorem scale_pair (n x y : Int) : scale n [x, y] = x * n * (y * n) := by
  rw [scale_cons, scale_cons, scale, List.foldr_nil, Int.mul_one]

theorem scale_pos {n : Int} (hn : 0 < n) {balances : List Int} (h : ∀ x ∈ balances, 0 < x) :
    0 < scale n balances := by
  induction balances with
  | nil => exact Int.one_pos
  | cons x rest ih =>
      rw [List.forall_mem_cons] at h
      rw [scale_cons]
      exact Int.mul_pos (Int.mul_pos h.1 hn) (ih h.2)

theorem sumOf_pos {xs : List Int} (hne : xs ≠ []) (h : ∀ x ∈ xs, 0 < x) : 0 < sumOf xs := by
  obtain ⟨x, rest, rfl⟩ := List.exists_cons_of_ne_nil hne
  rw [List.forall_mem_cons] at h
  have hrest := sumOf_nonneg fun y hy => Int.le_of_lt (h.2 y hy)
  rw [sumOf_cons]
  omega

/-- What covers an invariant covers every smaller one. -/
theorem Covers.le {ann n : Int} {balances : List Int} {d e : Int} (h : Covers ann n balances d)
    (hann : 1 ≤ ann) (hscale : 0 ≤ scale n balances) (he : 0 ≤ e) (hle : e ≤ d) :
    Covers ann n balances e := by
  have hpow : e ^ (balances.length + 1) ≤ d ^ (balances.length + 1) := pow_le_pow_left₀ he hle _
  have hrest : ann * sumOf balances - (ann - 1) * d ≤ ann * sumOf balances - (ann - 1) * e := by
    have hmul := Int.mul_le_mul_of_nonneg_left hle (show 0 ≤ ann - 1 by omega)
    omega
  exact Int.le_trans hpow (Int.le_trans h (Int.mul_le_mul_of_nonneg_left hrest hscale))

/-- A pair covers no less when one of its balances grows. -/
theorem Covers.pair_mono {ann n x y y' d : Int} (h : Covers ann n [x, y] d) (hann : 1 ≤ ann)
    (hn : 0 < n) (hx : 0 < x) (hy : 0 < y) (hd : 0 ≤ d) (hle : y ≤ y') :
    Covers ann n [x, y'] d := by
  rw [Covers, scale_pair] at h ⊢
  simp only [sumOf, List.length_cons, List.length_nil] at h ⊢
  have hcube : 0 ≤ d ^ (0 + 1 + 1 + 1) := pow_nonneg hd _
  have hplace : 0 < x * n * (y * n) := Int.mul_pos (Int.mul_pos hx hn) (Int.mul_pos hy hn)
  have hfactor : 0 ≤ ann * (x + (y + 0)) - (ann - 1) * d :=
    nonneg_of_mul_nonneg_right (Int.le_trans hcube h) hplace
  have hscale : x * n * (y * n) ≤ x * n * (y' * n) :=
    Int.mul_le_mul_of_nonneg_left (Int.mul_le_mul_of_nonneg_right hle (Int.le_of_lt hn))
      (Int.le_of_lt (Int.mul_pos hx hn))
  have hplace' : 0 ≤ x * n * (y' * n) := Int.le_trans (Int.le_of_lt hplace) hscale
  have hgrown : ann * (x + (y + 0)) - (ann - 1) * d ≤ ann * (x + (y' + 0)) - (ann - 1) * d := by
    have hmul := Int.mul_le_mul_of_nonneg_left (show x + (y + 0) ≤ x + (y' + 0) by omega)
      (show 0 ≤ ann by omega)
    omega
  exact Int.le_trans h (Int.mul_le_mul hscale hgrown hfactor hplace')

/-! ## One step of Newton's iteration -/

/-- A power lies above its tangents. -/
theorem tangent_le_pow (k : Nat) {d e : Int} (hd : 0 ≤ d) (he : 0 ≤ e) :
    d ^ k * ((k + 1) * e - k * d) ≤ e ^ (k + 1) := by
  induction k with
  | zero => simp
  | succ k ih =>
      have hstep : d ^ k * ((k + 1) * e - k * d) * e ≤ e ^ (k + 1) * e :=
        Int.mul_le_mul_of_nonneg_right ih he
      have hsquare : 0 ≤ d ^ k * ((k + 1 : Int) * (e - d) ^ 2) := by positivity
      push_cast
      calc d ^ (k + 1) * ((k + 1 + 1) * e - (k + 1) * d)
          = d ^ k * ((k + 1) * e - k * d) * e - d ^ k * ((k + 1) * (e - d) ^ 2) := by ring
        _ ≤ e ^ (k + 1) * e := by omega
        _ = e ^ (k + 1 + 1) := (pow_succ e (k + 1)).symm

theorem productTerm_fold_le {n d : Int} (hn : 0 < n) (hd : 0 ≤ d) {balances : List Int}
    (h : ∀ x ∈ balances, 0 < x) {init t : Int} (hinit : 0 ≤ init)
    (ht : balances.foldlM (fun term x => Checked.div (term * d) (x * n)) init = .ok t) :
    0 ≤ t ∧ t * scale n balances ≤ init * d ^ balances.length := by
  induction balances generalizing init with
  | nil =>
      cases ht
      exact ⟨hinit, by simp [scale]⟩
  | cons x rest ih =>
      rw [List.forall_mem_cons] at h
      rw [List.foldlM_cons, Result.bind_eq_ok] at ht
      obtain ⟨term, hdiv, hrest⟩ := ht
      obtain ⟨-, rfl⟩ := Checked.div_eq_ok_iff.1 hdiv
      have hplace : 0 < x * n := Int.mul_pos h.1 hn
      have hfloor := fdiv_mul_le (init * d) hplace
      obtain ⟨hnonneg, hle⟩ := ih h.2
        (Int.fdiv_nonneg (Int.mul_nonneg hinit hd) (Int.le_of_lt hplace)) hrest
      refine ⟨hnonneg, ?_⟩
      have hpow : 0 ≤ d ^ rest.length := pow_nonneg hd _
      calc t * scale n (x :: rest) = t * scale n rest * (x * n) := by rw [scale_cons]; ring
        _ ≤ (init * d).fdiv (x * n) * d ^ rest.length * (x * n) :=
            Int.mul_le_mul_of_nonneg_right hle (Int.le_of_lt hplace)
        _ = (init * d).fdiv (x * n) * (x * n) * d ^ rest.length := by ring
        _ ≤ init * d * d ^ rest.length := Int.mul_le_mul_of_nonneg_right hfloor hpow
        _ = init * d ^ (x :: rest).length := by rw [List.length_cons]; ring

/-- The product term does not exceed its exact value. -/
theorem productTerm_le {n d : Int} (hn : 0 < n) (hd : 0 ≤ d) {balances : List Int}
    (h : ∀ x ∈ balances, 0 < x) {t : Int} (ht : productTerm n d balances = .ok t) :
    0 ≤ t ∧ t * scale n balances ≤ d ^ (balances.length + 1) := by
  rw [pow_succ']
  exact productTerm_fold_le hn hd h hd ht

/-- The curve at `e` is above its value at the root if a step from `d` ends below `e`. Where the
tangent at `d` has risen above zero, the floored product term makes it flatter only; elsewhere the
linear part of the curve is enough. -/
theorem lt_pow_of_step {k : Nat} {ann sum place d t e : Int} (hd : 0 < d) (he : 0 < e)
    (hplace : 0 < place) (ht : 0 ≤ t) (hterm : t * place ≤ d ^ (k + 1))
    (hstep : (ann * sum + t * k) * d < e * ((ann - 1) * d + (k + 1) * t)) :
    place * (ann * sum - (ann - 1) * e) < e ^ (k + 1) := by
  have hslope : d * (ann * sum - (ann - 1) * e) < t * ((k + 1) * e - k * d) := by linarith
  by_cases hrise : 0 ≤ (k + 1) * e - k * d
  · have hchain : d * (place * (ann * sum - (ann - 1) * e)) < d * e ^ (k + 1) :=
      calc d * (place * (ann * sum - (ann - 1) * e))
          = place * (d * (ann * sum - (ann - 1) * e)) := by ring
        _ < place * (t * ((k + 1) * e - k * d)) := Int.mul_lt_mul_of_pos_left hslope hplace
        _ = t * place * ((k + 1) * e - k * d) := by ring
        _ ≤ d ^ (k + 1) * ((k + 1) * e - k * d) := Int.mul_le_mul_of_nonneg_right hterm hrise
        _ = d * (d ^ k * ((k + 1) * e - k * d)) := by ring
        _ ≤ d * e ^ (k + 1) := Int.mul_le_mul_of_nonneg_left
            (tangent_le_pow k (Int.le_of_lt hd) (Int.le_of_lt he)) (Int.le_of_lt hd)
    exact Int.lt_of_mul_lt_mul_left hchain (Int.le_of_lt hd)
  · have hfall : t * ((k + 1) * e - k * d) ≤ 0 :=
      Int.mul_nonpos_of_nonneg_of_nonpos ht (by omega)
    have hneg : ann * sum - (ann - 1) * e < 0 := by
      by_contra hnonneg
      have hmul : 0 ≤ d * (ann * sum - (ann - 1) * e) :=
        Int.mul_nonneg (Int.le_of_lt hd) (by omega)
      omega
    exact Int.lt_trans (mul_neg_of_pos_of_neg hplace hneg) (pow_pos he _)

theorem invariantStep_eq_ok_iff {amp ann n d e : Int} {balances : List Int} :
    invariantStep amp ann n balances d = .ok e ↔
      ∃ t, productTerm n d balances = .ok t ∧ 0 < (ann - 1) * d + (n + 1) * t ∧
        e = ((ann * sumOf balances + t * n) * d).fdiv ((ann - 1) * d + (n + 1) * t) := by
  simp only [invariantStep, Result.bind_eq_ok, Result.guarded_eq_ok, Except.ok.injEq, Int.not_le,
    eq_comm (a := e)]

theorem step_nonneg {amp ann n d e : Int} {balances : List Int} (hann : 0 ≤ ann) (hn : 0 < n)
    (hd : 0 ≤ d) (h : ∀ x ∈ balances, 0 < x)
    (he : invariantStep amp ann n balances d = .ok e) : 0 ≤ e := by
  obtain ⟨t, hterm, hden, rfl⟩ := invariantStep_eq_ok_iff.1 he
  obtain ⟨ht, -⟩ := productTerm_le hn hd h hterm
  have hsum := sumOf_nonneg fun x hx => Int.le_of_lt (h x hx)
  exact Int.fdiv_nonneg (by positivity) (Int.le_of_lt hden)

/-- No step is made from zero. -/
theorem pos_of_step {amp ann n d e : Int} {balances : List Int} (hn : 0 < n) (hd : 0 ≤ d)
    (h : ∀ x ∈ balances, 0 < x) (he : invariantStep amp ann n balances d = .ok e) : 0 < d := by
  by_contra hneg
  obtain rfl : d = 0 := by omega
  obtain ⟨t, hterm, hden, -⟩ := invariantStep_eq_ok_iff.1 he
  obtain ⟨ht, htscale⟩ := productTerm_le hn hd h hterm
  rw [zero_pow (by omega)] at htscale
  have hzero : t ≤ 0 := nonpos_of_mul_nonpos_left htscale (scale_pos hn h)
  obtain rfl : t = 0 := by omega
  simp at hden

/-- What Newton's step computes is above the exact invariant less one. In a pool that has more
assets than these balances the step is damped, which costs a part of what it rises. -/
theorem not_covers_damped_step {amp ann n d e rise : Int} {balances : List Int} (hann : 1 ≤ ann)
    (hn : 0 < n) (hlength : balances.length ≤ n) (hd : 0 ≤ d) (h : ∀ x ∈ balances, 0 < x)
    (he : invariantStep amp ann n balances d = .ok e) (hrise : 0 ≤ rise) (hle : e + 1 ≤ d + rise) :
    ¬Covers ann n balances (e + 1 + (n - balances.length) * rise) := by
  have hdpos := pos_of_step hn hd h he
  have hnonneg := step_nonneg (by omega) hn hd h he
  obtain ⟨t, hterm, hden, rfl⟩ := invariantStep_eq_ok_iff.1 he
  obtain ⟨ht, htscale⟩ := productTerm_le hn hd h hterm
  have hfloor := Int.lt_fdiv_add_one_mul_self ((ann * sumOf balances + t * n) * d) hden
  generalize ((ann * sumOf balances + t * n) * d).fdiv ((ann - 1) * d + (n + 1) * t) = e at *
  generalize hk : (balances.length : Int) = k at *
  have hk' : 0 ≤ k := by omega
  have hloss : 0 ≤ (n - k) * rise := Int.mul_nonneg (by omega) hrise
  have hlinear : (e + 1) * ((ann - 1) * d) ≤ (e + 1 + (n - k) * rise) * ((ann - 1) * d) :=
    Int.mul_le_mul_of_nonneg_right (by omega) (Int.mul_nonneg (by omega) hd)
  have hdamped : 0 ≤ t * ((n - k) * ((k + 1) * rise - (e + 1 - d))) := by
    have hmore : 0 ≤ k * rise := Int.mul_nonneg hk' hrise
    refine Int.mul_nonneg ht (Int.mul_nonneg (by omega) ?_)
    linarith
  rw [Covers, Int.not_le]
  refine lt_pow_of_step hdpos (by omega) (scale_pos hn h) ht htscale ?_
  rw [hk]
  linarith

/-- What Newton's step computes is above the exact invariant less one. -/
theorem not_covers_step {amp ann d e : Int} {balances : List Int} (hann : 1 ≤ ann)
    (hn : balances ≠ []) (hd : 0 ≤ d) (h : ∀ x ∈ balances, 0 < x)
    (he : invariantStep amp ann balances.length balances d = .ok e) :
    ¬Covers ann balances.length balances (e + 1) := by
  have hlength : 0 < balances.length := List.length_pos_iff.2 hn
  have hnonneg := step_nonneg (by omega) (by omega) hd h he
  have hstep := not_covers_damped_step hann (by omega) (Int.le_refl _) hd h he
    (show 0 ≤ e + 1 by omega) (by omega)
  rwa [Int.sub_self, Int.zero_mul, Int.add_zero] at hstep

/-! ## The iteration -/

theorem ann_eq_ok {amp n a : Int} (hn : 0 ≤ n) : ann amp n = .ok a ↔ a = amp * n ^ n.toNat := by
  rw [ann, Checked.power_of_nonneg hn, Result.map_eq_ok]
  simp only [Except.ok.injEq, exists_eq_left', eq_comm (a := a)]
  rfl

theorem one_le_ann {amp n : Int} (hamp : 1 ≤ amp) (hn : 1 ≤ n) : 1 ≤ amp * n ^ n.toNat := by
  have hpow : 1 ≤ n ^ n.toNat := one_le_pow₀ hn
  exact one_le_mul_of_one_le_of_one_le hamp hpow

theorem four_le_ann {amp n : Int} (hamp : 1 ≤ amp) (hn : 2 ≤ n) : 4 ≤ amp * n ^ n.toNat := by
  have hpow : (2 : Int) ^ 2 ≤ n ^ n.toNat :=
    calc (2 : Int) ^ 2 ≤ n ^ 2 := pow_le_pow_left₀ (by decide) hn 2
      _ ≤ n ^ n.toNat := pow_le_pow_right₀ (by omega) (by omega)
  calc (4 : Int) ≤ n ^ n.toNat := hpow
    _ ≤ amp * n ^ n.toNat := le_mul_of_one_le_left (by omega) hamp

theorem invariantFrom_nonneg {solver : Solver} {amp ann n : Int} {balances : List Int}
    (hann : 0 ≤ ann) (hn : 0 < n) (h : ∀ x ∈ balances, 0 < x) {fuel : Nat} {d e : Int}
    (hd : 0 ≤ d) (he : invariantFrom solver amp ann n balances fuel d = .ok e) : 0 ≤ e := by
  induction fuel generalizing d with
  | zero => cases he
  | succ fuel ih =>
      rw [invariantFrom, Result.bind_eq_ok] at he
      obtain ⟨next, hnext, hrest⟩ := he
      have hnonneg := step_nonneg hann hn hd h hnext
      split at hrest
      · cases hrest
        exact hnonneg
      · exact ih hnonneg hrest

theorem ne_zero_of_productTerm {n d init t : Int} {balances : List Int}
    (h : balances.foldlM (fun term x => Checked.div (term * d) (x * n)) init = .ok t) :
    ∀ x ∈ balances, x ≠ 0 := by
  induction balances generalizing init with
  | nil => exact fun _ hx => nomatch hx
  | cons x rest ih =>
      rw [List.foldlM_cons, Result.bind_eq_ok] at h
      obtain ⟨term, hdiv, hrest⟩ := h
      obtain ⟨hne, -⟩ := Checked.div_eq_ok_iff.1 hdiv
      refine List.forall_mem_cons.2 ⟨?_, ih hrest⟩
      rintro rfl
      exact hne (Int.zero_mul n)

/-- Where there is something in a pool, its invariant is computed only if there is some of every
asset: each balance is a divisor. -/
theorem ne_zero_of_invariantOf {solver : Solver} {amp n d : Int} {balances : List Int}
    (hsum : sumOf balances ≠ 0) (h : invariantOf solver amp n balances = .ok d) :
    ∀ x ∈ balances, x ≠ 0 := by
  rw [invariantOf, if_neg hsum] at h
  obtain ⟨a, -, hfrom⟩ := Result.bind_eq_ok.1 h
  cases hfuel : solver.maxIterations.toNat with
  | zero =>
      rw [hfuel] at hfrom
      cases hfrom
  | succ fuel =>
      rw [hfuel, invariantFrom, Result.bind_eq_ok] at hfrom
      obtain ⟨next, hstep, -⟩ := hfrom
      obtain ⟨t, hterm, -⟩ := Result.bind_eq_ok.1 hstep
      exact ne_zero_of_productTerm hterm

/-- The invariant of balances that may be zero: where something is in the pool, only an invariant of
positive balances is computed. -/
theorem invariantOf_nonneg {solver : Solver} {amp n d : Int} {balances : List Int}
    (hamp : 1 ≤ amp) (hn : 1 ≤ n) (h : ∀ x ∈ balances, 0 ≤ x)
    (hd : invariantOf solver amp n balances = .ok d) : 0 ≤ d := by
  by_cases hzero : sumOf balances = 0
  · rw [invariantOf, if_pos hzero] at hd
    cases hd
    exact Int.le_refl 0
  · have hpositive : ∀ x ∈ balances, 0 < x := by
      intro x hx
      have hne := ne_zero_of_invariantOf hzero hd x hx
      have hnonneg := h x hx
      omega
    rw [invariantOf, if_neg hzero] at hd
    obtain ⟨a, ha, hfrom⟩ := Result.bind_eq_ok.1 hd
    have hann : 0 ≤ a := by
      have hone := one_le_ann hamp hn
      rw [(ann_eq_ok (by omega)).1 ha]
      omega
    exact invariantFrom_nonneg hann (by omega) hpositive (sumOf_nonneg h) hfrom

end MarketMaker.StableSwap
