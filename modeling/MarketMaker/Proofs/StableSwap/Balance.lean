import Mathlib.Tactic.GCongr
import MarketMaker.Proofs.StableSwap.Invariant
import MarketMaker.StableSwap.Balance

/-! # The balance that the solver finds

The solver rounds every quotient down, three of them before it starts and one in each step. All of
that together costs less than two units: with them the balances cover the invariant that they were
solved for, however the iteration came to stop. -/

namespace MarketMaker.StableSwap

/-! ## The last step -/

theorem balanceFrom_last {solver : Solver} {c b d y r : Int} {fuel : Nat}
    (h : balanceFrom solver c b d fuel y = .ok r) : ∃ p, balanceStep c b d p = .ok r := by
  induction fuel generalizing y with
  | zero => cases h
  | succ fuel ih =>
      rw [balanceFrom, Result.bind_eq_ok] at h
      obtain ⟨next, hnext, hrest⟩ := h
      split at hrest
      · cases hrest
        exact ⟨y, hnext⟩
      · exact ih hrest

/-- A step from `p` ends below exactly those `w` at which the quadratic exceeds the square of their
distance from `p`. -/
theorem lt_iff_of_balanceStep {c b d p r w : Int} (h : balanceStep c b d p = .ok r) :
    r < w ↔ (w - p) ^ 2 < w * w + (b - d) * w - c := by
  simp only [balanceStep, Result.guarded_eq_ok, Int.not_le, Except.ok.injEq] at h
  obtain ⟨hden, rfl⟩ := h
  rw [fdiv_lt_iff hden]
  constructor
  · intro hlt
    linarith
  · intro hlt
    linarith

theorem balanceStep_nonneg {c b d p r : Int} (hc : 0 ≤ c) (h : balanceStep c b d p = .ok r) :
    0 ≤ r := by
  simp only [balanceStep, Result.guarded_eq_ok, Int.not_le, Except.ok.injEq] at h
  obtain ⟨hden, rfl⟩ := h
  exact Int.fdiv_nonneg (Int.add_nonneg (mul_self_nonneg p) hc) (Int.le_of_lt hden)

/-- One unit above what a step computes, the square exceeds the constant. -/
theorem lt_sq_of_balanceStep {c b d p r : Int} (hc : 0 ≤ c) (h : balanceStep c b d p = .ok r) :
    0 ≤ r ∧ c < (r + 1) ^ 2 + (b - d) * (r + 1) := by
  have habove := (lt_iff_of_balanceStep h).1 (Int.lt_succ r)
  have hgap : 0 ≤ (r + 1 - p) ^ 2 := sq_nonneg _
  refine ⟨balanceStep_nonneg hc h, ?_⟩
  linarith

/-! ## What the roundings cost -/

/-- The quotients that the solver starts with, for an invariant `d` and a balance `x`. -/
structure Quotients (ann n x d c e : Int) : Prop where
  constant : ∃ r, d * d < (r + 1) * (x * n) ∧ r * d < (c + 1) * (ann * n)
  linear : d < (e + 1) * ann ∧ e * ann ≤ d

/-- The constant is less than its exact value by a part of `d` at most. -/
theorem Quotients.cube_le {ann n x d c e : Int} (h : Quotients ann n x d c e) (hx : 0 < x)
    (hn : 0 < n) (hd : 0 ≤ d) : d ^ 3 ≤ x * n * ((c + 1) * (ann * n) + d) := by
  obtain ⟨r, hfirst, hsecond⟩ := h.constant
  have hplace : 0 < x * n := Int.mul_pos hx hn
  calc d ^ 3 = d * d * d := by ring
    _ ≤ (r + 1) * (x * n) * d := Int.mul_le_mul_of_nonneg_right (Int.le_of_lt hfirst) hd
    _ = x * n * (r * d + d) := by ring
    _ ≤ x * n * ((c + 1) * (ann * n) + d) :=
        Int.mul_le_mul_of_nonneg_left (by omega) (Int.le_of_lt hplace)

/-- Where the constant is large against `d`, so is the slope, as it is at least its root. -/
theorem le_slope_of_sq {ann n c d w : Int} (hann : 4 ≤ ann) (hn : 0 < n) (hd : 0 < d) (hw : 0 < w)
    (hsquare : d * d ≤ n * ((c + 1) * (ann * n) + d)) (hslope : 4 * (c + 1) ≤ w ^ 2) :
    d ≤ ann * n * (w + 1) := by
  by_contra hlt
  have hwide : n * w ≤ n * (w + 1) := Int.mul_le_mul_of_nonneg_left (by omega) (by omega)
  have hnw : n ≤ n * w := le_mul_of_one_le_right (by omega) (by omega)
  have hassoc : ann * n * (w + 1) = ann * (n * (w + 1)) := Int.mul_assoc _ _ _
  generalize n * (w + 1) = m at *
  have hannpos : 0 < ann := by omega
  have hmpos : 0 < m := by omega
  have hfour : 4 * m ≤ ann * m := Int.mul_le_mul_of_nonneg_right hann (by omega)
  have hlinear : 4 * n * d ≤ d * d := Int.mul_le_mul_of_nonneg_right (by omega) (by omega)
  have hquadratic : 4 * (ann * (n * w) ^ 2) ≤ d * d :=
    calc 4 * (ann * (n * w) ^ 2) ≤ 4 * (ann * m ^ 2) := by gcongr
      _ = 4 * m * (ann * m) := by ring
      _ ≤ d * d := Int.mul_le_mul (by omega) (by omega) (by positivity) (by omega)
  have hconstant : ann * n ^ 2 * (4 * (c + 1)) ≤ ann * n ^ 2 * w ^ 2 := by gcongr
  have hdd : 0 < d * d := Int.mul_pos hd hd
  linarith

/-- The slope at the computed balance makes up for all that the constant lacks. -/
theorem Quotients.le_slope {ann n x d c e y : Int} (h : Quotients ann n x d c e) (hann : 4 ≤ ann)
    (hn : 0 < n) (hx : 0 < x) (hd : 0 ≤ d) (hc : 0 ≤ c) (he : 0 ≤ e) (hy : 0 < y)
    (hsq : c < y ^ 2 + (x + e - d) * y) : d ≤ ann * n * (2 * y + (x + e - d) + 1) := by
  have hroot : 0 < y + (x + e - d) := by
    by_contra hneg
    have hmul : y * (y + (x + e - d)) ≤ 0 :=
      Int.mul_nonpos_of_nonneg_of_nonpos (by omega) (by omega)
    linarith
  by_cases hle : d ≤ x
  · -- The moved balance alone makes the slope steep.
    have hannn : ann ≤ ann * n := le_mul_of_one_le_right (by omega) hn
    calc d ≤ (e + 1) * ann := Int.le_of_lt h.linear.1
      _ = ann * (e + 1) := Int.mul_comm _ _
      _ ≤ ann * n * (2 * y + (x + e - d) + 1) :=
          Int.mul_le_mul hannn (by omega) (by omega) (by omega)
  · have hdpos : 0 < d := by omega
    have hcube := h.cube_le hx hn hd
    generalize x + e - d = q at *
    have hsquare : d * d ≤ n * ((c + 1) * (ann * n) + d) := by
      have hrest : 0 ≤ n * ((c + 1) * (ann * n) + d) := by
        have hannpos : 0 < ann := by omega
        positivity
      refine Int.le_of_mul_le_mul_left ?_ hdpos
      calc d * (d * d) = d ^ 3 := by ring
        _ ≤ x * (n * ((c + 1) * (ann * n) + d)) := by rw [← Int.mul_assoc]; exact hcube
        _ ≤ d * (n * ((c + 1) * (ann * n) + d)) := Int.mul_le_mul_of_nonneg_right (by omega) hrest
    have hslope : 4 * (c + 1) ≤ (2 * y + q) ^ 2 := by
      have hq : 0 ≤ q ^ 2 := sq_nonneg q
      linarith
    exact le_slope_of_sq hann hn hdpos (by omega) hsquare hslope

/-- Two units above what the last step computes, the pair covers the invariant. -/
theorem Quotients.covers {ann n x d c e y : Int} (h : Quotients ann n x d c e) (hann : 4 ≤ ann)
    (hn : 0 < n) (hx : 0 < x) (hd : 0 ≤ d) (hc : 0 ≤ c) (he : 0 ≤ e) (hy : 0 < y)
    (hsq : c < y ^ 2 + (x + e - d) * y) : Covers ann n [x, y + 1] d := by
  have hcube := h.cube_le hx hn hd
  have hslope := h.le_slope hann hn hx hd hc he hy hsq
  have hlinear := h.linear.2
  have hplace : 0 < x * n := Int.mul_pos hx hn
  have hannn : 0 < ann * n := Int.mul_pos (by omega) hn
  have hgrown : (c + 1) * (ann * n) + d ≤
      ann * n * ((y + 1) ^ 2 + (x + e - d) * (y + 1)) := by
    have hmul : ann * n * (c + 1) ≤ ann * n * (y ^ 2 + (x + e - d) * y) :=
      Int.mul_le_mul_of_nonneg_left (by omega) (by omega)
    linarith
  have hrest : ann * (y + 1 + (x + e - d)) ≤ ann * (x + (y + 1)) - (ann - 1) * d := by linarith
  rw [Covers, scale_pair]
  simp only [sumOf, List.length_cons, List.length_nil]
  calc d ^ (0 + 1 + 1 + 1) ≤ x * n * ((c + 1) * (ann * n) + d) := hcube
    _ ≤ x * n * (ann * n * ((y + 1) ^ 2 + (x + e - d) * (y + 1))) :=
        Int.mul_le_mul_of_nonneg_left hgrown (by omega)
    _ = x * n * ((y + 1) * n) * (ann * (y + 1 + (x + e - d))) := by ring
    _ ≤ x * n * ((y + 1) * n) * (ann * (x + (y + 1 + 0)) - (ann - 1) * d) :=
        Int.mul_le_mul_of_nonneg_left (by rw [Int.add_zero]; exact hrest) (by positivity)

/-! ## The solved balance -/

/-- The numbers that the solver has when it takes its last step: the invariant `d`, the balance `x`
that has moved, the quotients of both, and the iterate `last` before the answer. On the curve lies
the `w` with `w ^ 2 + (x + e - d) * w = c`. -/
structure Solve where
  d : Int
  x : Int
  ann : Int
  ratio : Int
  c : Int
  e : Int
  last : Int

/-- A solve that ends with the balance `y`. -/
structure Solve.Of (k : Solve) (solver : Solver) (n offer ask amount amp : Int)
    (direction : Direction) (y : Int) : Prop where
  solved : counterBalance solver n offer ask amount amp direction = .ok y
  invariant : pairInvariant solver amp n offer ask = .ok k.d
  moved : moved offer ask amount direction = .ok k.x
  ann : StableSwap.ann amp n = .ok k.ann
  ratio : Checked.div (k.d * k.d) (k.x * n) = .ok k.ratio
  constant : Checked.div (k.ratio * k.d) (k.ann * n) = .ok k.c
  part : Checked.div k.d k.ann = .ok k.e
  step : balanceStep k.c (k.x + k.e) k.d k.last = .ok y

variable {solver : Solver} {n offer ask amount amp y : Int} {direction : Direction}

theorem exists_solve (h : counterBalance solver n offer ask amount amp direction = .ok y) :
    ∃ k : Solve, k.Of solver n offer ask amount amp direction y := by
  have hsolved := h
  simp only [counterBalance, Result.bind_eq_ok] at h
  obtain ⟨d, hd, x, hx, a, ha, r, hr, c, hc, e, he, hfrom⟩ := h
  obtain ⟨p, hlast⟩ := balanceFrom_last hfrom
  exact ⟨⟨d, x, a, r, c, e, p⟩, hsolved, hd, hx, ha, hr, hc, he, hlast⟩

namespace Solve

def excess (k : Solve) (w : Int) : Int := w * w + (k.x + k.e - k.d) * w - k.c

/-- The quadratic exceeds the square of the distance from the last iterate. -/
def EndsBelow (k : Solve) (w : Int) : Prop := (w - k.last) ^ 2 < k.excess w

instance (k : Solve) (w : Int) : Decidable (k.EndsBelow w) := inferInstanceAs (Decidable (_ < _))

/-- No number of a solve is below zero. -/
structure Nonneg (k : Solve) : Prop where
  d : 0 ≤ k.d
  ann : 4 ≤ k.ann
  c : 0 ≤ k.c
  e : 0 ≤ k.e

namespace Of

variable {k : Solve}

theorem lt_iff (h : k.Of solver n offer ask amount amp direction y) (w : Int) :
    y < w ↔ k.EndsBelow w := lt_iff_of_balanceStep h.step

theorem ann_eq (h : k.Of solver n offer ask amount amp direction y) (hn : 0 ≤ n) :
    k.ann = amp * n ^ n.toNat := (ann_eq_ok hn).1 h.ann

theorem nonneg (h : k.Of solver n offer ask amount amp direction y) (hn : 2 ≤ n) (hamp : 1 ≤ amp)
    (hoffer : 0 ≤ offer) (hask : 0 ≤ ask) (hx : 0 ≤ k.x) : k.Nonneg := by
  have hbalances : ∀ x ∈ [offer, ask], 0 ≤ x := by
    intro x hx
    simp only [List.mem_cons, List.not_mem_nil, or_false] at hx
    rcases hx with rfl | rfl
    · exact hoffer
    · exact hask
  have hd : 0 ≤ k.d := invariantOf_nonneg hamp (by omega) hbalances h.invariant
  have hann : 4 ≤ k.ann := by
    rw [h.ann_eq (by omega)]
    exact four_le_ann hamp hn
  have hratio : 0 ≤ k.ratio := by
    rw [(Checked.div_eq_ok_iff.1 h.ratio).2]
    exact Int.fdiv_nonneg (mul_self_nonneg _) (Int.mul_nonneg hx (by omega))
  refine ⟨hd, hann, ?_, ?_⟩
  · rw [(Checked.div_eq_ok_iff.1 h.constant).2]
    exact Int.fdiv_nonneg (Int.mul_nonneg hratio hd) (Int.mul_nonneg (by omega) (by omega))
  · rw [(Checked.div_eq_ok_iff.1 h.part).2]
    exact Int.fdiv_nonneg hd (by omega)

theorem quotients (h : k.Of solver n offer ask amount amp direction y) (hn : 0 < n)
    (hann : 0 < k.ann) (hx : 0 < k.x) : Quotients k.ann n k.x k.d k.c k.e where
  constant := by
    refine ⟨k.ratio, ?_, ?_⟩
    · rw [(Checked.div_eq_ok_iff.1 h.ratio).2]
      exact Int.lt_fdiv_add_one_mul_self _ (Int.mul_pos hx hn)
    · rw [(Checked.div_eq_ok_iff.1 h.constant).2]
      exact Int.lt_fdiv_add_one_mul_self _ (Int.mul_pos hann hn)
  linear := by
    rw [(Checked.div_eq_ok_iff.1 h.part).2]
    exact ⟨Int.lt_fdiv_add_one_mul_self _ hann, fdiv_mul_le _ hann⟩

end Of

end Solve

/-- What the solver answers for a forward move, and two units more, cover the invariant that it
starts from. -/
theorem covers_of_counterBalance (hn : 2 ≤ n) (hamp : 1 ≤ amp) (hoffer : 0 < offer) (hask : 0 < ask)
    (hamount : 0 ≤ amount)
    (h : counterBalance solver n offer ask amount amp .forward = .ok y) :
    ∃ d, pairInvariant solver amp n offer ask = .ok d ∧ 0 ≤ d ∧ 0 ≤ y ∧
      Covers (amp * n ^ n.toNat) n [offer + amount, y + 2] d := by
  obtain ⟨k, hk⟩ := exists_solve h
  have hx : offer + amount = k.x := Except.ok.inj hk.moved
  have hsigns := hk.nonneg hn hamp (Int.le_of_lt hoffer) (Int.le_of_lt hask) (by omega)
  have hann := hsigns.ann
  obtain ⟨hy, hsq⟩ := lt_sq_of_balanceStep hsigns.c hk.step
  have hcovers := (hk.quotients (by omega) (by omega) (by omega)).covers hann (by omega) (by omega)
    hsigns.d hsigns.c hsigns.e (show 0 < y + 1 by omega) hsq
  rw [hk.ann_eq (by omega), Int.add_assoc, ← hx] at hcovers
  exact ⟨k.d, hk.invariant, hsigns.d, hy, hcovers⟩

end MarketMaker.StableSwap
