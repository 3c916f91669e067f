import MarketMaker.Proofs.StableSwap.Iterate

/-! # What the floors of the product term cost

The product term is divided once for each balance, and rounded down each time. What the first floors
take off is multiplied by the later divisions, and on a skewed pool the term can come to nothing. In
all, the floors take off no more than if every balance were filled up by the iterate once. That is
little against the amplification, so an invariant above the sum of the balances is never
answered. -/

namespace MarketMaker.StableSwap

variable {n d : Int} {balances : List Int}

/-! ## Balances that are filled up -/

/-- The scale of the balances when each of its factors is filled up by `d`. -/
def filled (n : Int) (balances : List Int) (d : Int) : Int :=
  (balances.map fun x => d + x * n).prod

/-- What the floors take off the product term at most, times the scale. -/
def shortfall (n : Int) (balances : List Int) (d : Int) : Int :=
  filled n balances d - d ^ balances.length

theorem filled_cons (n x : Int) (rest : List Int) (d : Int) :
    filled n (x :: rest) d = (d + x * n) * filled n rest d := by
  rw [filled, List.map_cons, List.prod_cons, filled]

theorem filled_zero (n : Int) (balances : List Int) : filled n balances 0 = scale n balances := by
  induction balances with
  | nil => simp [filled, scale]
  | cons x rest ih => rw [filled_cons, ih, scale_cons, Int.zero_add]

theorem shortfall_cons (n x : Int) (rest : List Int) (d : Int) :
    shortfall n (x :: rest) d = d * shortfall n rest d + x * n * filled n rest d := by
  rw [shortfall, shortfall, filled_cons, List.length_cons]
  ring

theorem pow_le_filled (hn : 0 < n) (hd : 0 ≤ d) (h : ∀ x ∈ balances, 0 < x) :
    d ^ balances.length ≤ filled n balances d := by
  induction balances with
  | nil => simp [filled]
  | cons x rest ih =>
      rw [List.forall_mem_cons] at h
      have hplace : 0 < x * n := Int.mul_pos h.1 hn
      rw [filled_cons, List.length_cons, pow_succ']
      exact Int.mul_le_mul (by omega) (ih h.2) (pow_nonneg hd _) (by omega)

theorem filled_pos (hn : 0 < n) (hd : 0 ≤ d) (h : ∀ x ∈ balances, 0 < x) :
    0 < filled n balances d := by
  induction balances with
  | nil => simp [filled]
  | cons x rest ih =>
      rw [List.forall_mem_cons] at h
      have hplace : 0 < x * n := Int.mul_pos h.1 hn
      rw [filled_cons]
      exact Int.mul_pos (by omega) (ih h.2)

theorem filled_mono (hn : 0 < n) (hd : 0 ≤ d) (h : ∀ x ∈ balances, 0 < x) {e : Int}
    (hle : d ≤ e) : filled n balances d ≤ filled n balances e := by
  induction balances with
  | nil => exact Int.le_refl _
  | cons x rest ih =>
      rw [List.forall_mem_cons] at h
      have hplace : 0 < x * n := Int.mul_pos h.1 hn
      rw [filled_cons, filled_cons]
      exact Int.mul_le_mul (by omega) (ih h.2) (Int.le_of_lt (filled_pos hn hd h.2)) (by omega)

theorem shortfall_nonneg (hn : 0 < n) (hd : 0 ≤ d) (h : ∀ x ∈ balances, 0 < x) :
    0 ≤ shortfall n balances d := Int.sub_nonneg_of_le (pow_le_filled hn hd h)

theorem shortfall_mono (hn : 0 < n) (hd : 0 ≤ d) (h : ∀ x ∈ balances, 0 < x) {e : Int}
    (hle : d ≤ e) : shortfall n balances d ≤ shortfall n balances e := by
  induction balances with
  | nil => simp [shortfall, filled]
  | cons x rest ih =>
      rw [List.forall_mem_cons] at h
      have hplace : 0 ≤ x * n := Int.le_of_lt (Int.mul_pos h.1 hn)
      have hrest : d * shortfall n rest d ≤ e * shortfall n rest e :=
        Int.mul_le_mul hle (ih h.2) (shortfall_nonneg hn hd h.2) (by omega)
      have hfilled := Int.mul_le_mul_of_nonneg_left (filled_mono hn hd h.2 hle) hplace
      rw [shortfall_cons, shortfall_cons]
      omega

/-! ## The product term from below -/

/-- One floor, and what the rest of the divisions make of it. -/
theorem lt_of_floor {x init term t : Int} {rest : List Int} (hd : 0 < d) (hplace : 0 < x * n)
    (hfloor : init * d < (term + 1) * (x * n)) (hfilled : d ^ rest.length ≤ filled n rest d)
    (hrest : (term + 1) * d ^ rest.length ≤ t * scale n rest + filled n rest d) :
    (init + 1) * d ^ (x :: rest).length <
      t * scale n (x :: rest) + filled n (x :: rest) d := by
  have hpow : 0 < d ^ rest.length := pow_pos hd _
  have hhead := Int.mul_lt_mul_of_pos_right hfloor hpow
  have htail := Int.mul_le_mul_of_nonneg_left hfilled (Int.le_of_lt hd)
  have hmul := Int.mul_le_mul_of_nonneg_left hrest (Int.le_of_lt hplace)
  rw [filled_cons, scale_cons, List.length_cons]
  calc (init + 1) * d ^ (rest.length + 1)
      = init * d * d ^ rest.length + d * d ^ rest.length := by ring
    _ < (term + 1) * (x * n) * d ^ rest.length + d * filled n rest d := by omega
    _ = x * n * ((term + 1) * d ^ rest.length) + d * filled n rest d := by ring
    _ ≤ x * n * (t * scale n rest + filled n rest d) + d * filled n rest d := by omega
    _ = t * (x * n * scale n rest) + (d + x * n) * filled n rest d := by ring

theorem le_productTerm_fold (hn : 0 < n) (hd : 0 < d) (h : ∀ x ∈ balances, 0 < x) {init t : Int}
    (ht : balances.foldlM (fun term x => Checked.div (term * d) (x * n)) init = .ok t) :
    (init + 1) * d ^ balances.length ≤ t * scale n balances + filled n balances d := by
  induction balances generalizing init with
  | nil =>
      cases ht
      simp [scale, filled]
  | cons x rest ih =>
      rw [List.forall_mem_cons] at h
      rw [List.foldlM_cons, Result.bind_eq_ok] at ht
      obtain ⟨term, hdiv, hrest⟩ := ht
      obtain ⟨-, rfl⟩ := Checked.div_eq_ok_iff.1 hdiv
      have hplace : 0 < x * n := Int.mul_pos h.1 hn
      exact Int.le_of_lt (lt_of_floor hd hplace (Int.lt_fdiv_add_one_mul_self _ hplace)
        (pow_le_filled hn (Int.le_of_lt hd) h.2) (ih h.2 hrest))

/-- The product term falls short of its exact value by less than the shortfall. -/
theorem lt_productTerm (hn : 0 < n) (hd : 0 < d) (hne : balances ≠ [])
    (h : ∀ x ∈ balances, 0 < x) {t : Int} (ht : productTerm n d balances = .ok t) :
    d ^ (balances.length + 1) < t * scale n balances + shortfall n balances d := by
  obtain ⟨x, rest, rfl⟩ := List.exists_cons_of_ne_nil hne
  rw [List.forall_mem_cons] at h
  rw [productTerm, List.foldlM_cons, Result.bind_eq_ok] at ht
  obtain ⟨term, hdiv, hrest⟩ := ht
  obtain ⟨-, rfl⟩ := Checked.div_eq_ok_iff.1 hdiv
  have hplace : 0 < x * n := Int.mul_pos h.1 hn
  have hlt := lt_of_floor hd hplace (Int.lt_fdiv_add_one_mul_self _ hplace)
    (pow_le_filled hn (Int.le_of_lt hd) h.2) (le_productTerm_fold hn hd h.2 hrest)
  rw [Int.add_mul, Int.one_mul, ← pow_succ'] at hlt
  rw [shortfall]
  omega

/-! ## Means -/

/-- The inequality of the means, without roots or quotients. -/
theorem pow_length_mul_prod_le (xs : List Int) (h : ∀ x ∈ xs, 0 ≤ x) :
    (xs.length : Int) ^ xs.length * xs.prod ≤ sumOf xs ^ xs.length := by
  induction xs with
  | nil => simp
  | cons x rest ih =>
      rw [List.forall_mem_cons] at h
      rw [List.length_cons, List.prod_cons, sumOf_cons]
      generalize hk : rest.length = k at *
      push_cast
      by_cases hzero : k = 0
      · subst hzero
        obtain rfl := List.length_eq_zero_iff.1 hk
        simp [sumOf]
      have hkpos : (0 : Int) < k := by omega
      have hs : 0 ≤ sumOf rest := sumOf_nonneg h.2
      -- The tangent is taken where the rest has its mean.
      have hmean : 0 ≤ (k + 1) * sumOf rest := by positivity
      have hwhole : 0 ≤ k * (x + sumOf rest) :=
        Int.mul_nonneg (Int.le_of_lt hkpos) (Int.add_nonneg h.1 hs)
      have htangent := tangent_le_pow k hmean hwhole
      have hgrown : (k + 1 : Int) ^ (k + 1) * k * x * (k ^ k * rest.prod) ≤
          (k + 1) ^ (k + 1) * k * x * sumOf rest ^ k :=
        Int.mul_le_mul_of_nonneg_left (ih h.2)
          (Int.mul_nonneg (by positivity) h.1)
      refine Int.le_of_mul_le_mul_left ?_ (pow_pos hkpos (k + 1))
      calc (k : Int) ^ (k + 1) * ((k + 1) ^ (k + 1) * (x * rest.prod))
          = (k + 1 : Int) ^ (k + 1) * k * x * (k ^ k * rest.prod) := by ring
        _ ≤ (k + 1) ^ (k + 1) * k * x * sumOf rest ^ k := hgrown
        _ = ((k + 1) * sumOf rest) ^ k * ((k + 1) * (k * (x + sumOf rest)) -
              k * ((k + 1) * sumOf rest)) := by rw [mul_pow]; ring
        _ ≤ (k * (x + sumOf rest)) ^ (k + 1) := htangent
        _ = (k : Int) ^ (k + 1) * (x + sumOf rest) ^ (k + 1) := mul_pow _ _ _

theorem prod_le_pow_of_sumOf_le {xs : List Int} (h : ∀ x ∈ xs, 0 ≤ x) {mean : Int}
    (hsum : sumOf xs ≤ xs.length * mean) : xs.prod ≤ mean ^ xs.length := by
  by_cases hne : xs = []
  · subst hne
    simp
  have hlength : 0 < xs.length := List.length_pos_iff.2 hne
  have hpow : (0 : Int) < xs.length ^ xs.length := pow_pos (by omega) _
  refine Int.le_of_mul_le_mul_left ?_ hpow
  calc (xs.length : Int) ^ xs.length * xs.prod ≤ sumOf xs ^ xs.length :=
        pow_length_mul_prod_le xs h
    _ ≤ (xs.length * mean) ^ xs.length := pow_le_pow_left₀ (sumOf_nonneg h) hsum _
    _ = (xs.length : Int) ^ xs.length * mean ^ xs.length := mul_pow _ _ _

theorem sumOf_map_filled (balances : List Int) (n d : Int) :
    sumOf (balances.map fun x => d + x * n) = balances.length * d + sumOf balances * n := by
  induction balances with
  | nil => simp [sumOf]
  | cons x rest ih =>
      rw [List.map_cons, sumOf_cons, ih, List.length_cons, sumOf_cons]
      push_cast
      ring

/-- In a pool of all the balances, filled up they are at most what they are when they are equal. -/
theorem filled_le {c : Int} (h : ∀ x ∈ balances, 0 < x) (hc : 0 ≤ c) (hsum : sumOf balances ≤ d) :
    filled balances.length balances c ≤ (c + d) ^ balances.length := by
  have hnonneg : ∀ y ∈ balances.map fun x => c + x * balances.length, 0 ≤ y := by
    intro y hy
    obtain ⟨x, hx, rfl⟩ := List.mem_map.1 hy
    exact Int.add_nonneg hc (Int.mul_nonneg (Int.le_of_lt (h x hx)) (by omega))
  have htotal : sumOf (balances.map fun x => c + x * balances.length) ≤
      (balances.map fun x => c + x * balances.length).length * (c + d) := by
    have hmul := Int.mul_le_mul_of_nonneg_left hsum (show (0 : Int) ≤ balances.length by omega)
    rw [List.length_map, sumOf_map_filled, Int.mul_add, Int.mul_comm (sumOf balances)]
    omega
  have hmean := prod_le_pow_of_sumOf_le hnonneg htotal
  rwa [List.length_map] at hmean

/-! ## Invariants above the sum -/

/-- From the sum of the balances or above, the product term is the iterate but for a constant. -/
theorem lt_productTerm_add (hne : balances ≠ []) (h : ∀ x ∈ balances, 0 < x)
    (hsum : sumOf balances ≤ d) {t : Int} (ht : productTerm balances.length d balances = .ok t) :
    d + 1 < t + 2 ^ balances.length := by
  have hlength : 0 < balances.length := List.length_pos_iff.2 hne
  have hd : 0 < d := Int.lt_of_lt_of_le (sumOf_pos hne h) hsum
  have hlt := lt_productTerm (by omega) hd hne h ht
  have htpos := (productTerm_le (by omega) (Int.le_of_lt hd) h ht).1
  have hscale : scale balances.length balances ≤ d ^ balances.length := by
    have hfilled := filled_le h (Int.le_refl 0) hsum
    rwa [filled_zero, Int.zero_add] at hfilled
  have hfilled := filled_le h (Int.le_of_lt hd) hsum
  have hterm := Int.mul_le_mul_of_nonneg_left hscale htpos
  rw [← Int.two_mul, mul_pow] at hfilled
  rw [shortfall] at hlt
  refine Int.lt_of_mul_lt_mul_right (a := d ^ balances.length) ?_ (by positivity)
  calc (d + 1) * d ^ balances.length = d ^ (balances.length + 1) + d ^ balances.length := by ring
    _ < t * d ^ balances.length + 2 ^ balances.length * d ^ balances.length := by omega
    _ = (t + 2 ^ balances.length) * d ^ balances.length := by ring

theorem two_pow_add_le_pow {k : Nat} (hk : 2 ≤ k) : (2 : Int) ^ k + k ≤ k ^ k + 2 := by
  obtain ⟨j, rfl⟩ : ∃ j, k = j + 2 := ⟨k - 2, by omega⟩
  have hbase : (2 : Int) ^ (j + 1) ≤ ((j + 2 : Nat) : Int) ^ (j + 1) :=
    pow_le_pow_left₀ (by decide) (by omega) _
  have hone : (1 : Int) ≤ 2 ^ (j + 1) := one_le_pow₀ (by decide)
  have hmore : (j : Int) ≤ 2 ^ (j + 1) * j := le_mul_of_one_le_left (by omega) hone
  have hmul := Int.mul_le_mul_of_nonneg_right hbase (show (0 : Int) ≤ (j + 2 : Nat) by omega)
  rw [pow_succ _ (j + 1), pow_succ _ (j + 1)]
  push_cast at hmul ⊢
  linarith

/-- No step from the sum or above ends above the sum and within one of where it started: the term is
less than the iterate by `w` at most, and the amplification makes up for that. -/
theorem not_close_above {k w ann t e : Int} (hk : 2 ≤ k) (hw : 4 ≤ w) (hann : w + k ≤ ann + 2)
    (ht : 0 ≤ t) (hterm : d + 1 < t + w) (he : k < e)
    (hslope : t * ((k + 1) * e - k * d) ≤ d * (e - ann)) :
    ¬(e - d ≤ 1 ∧ d - e ≤ 1) := by
  rintro ⟨hup, hdown⟩
  have hwk : 4 * (k + 1) ≤ w * (k + 1) := Int.mul_le_mul_of_nonneg_right hw (by omega)
  have hreach : d * (e - ann) ≤ d * (e + 2 - w - k) :=
    Int.mul_le_mul_of_nonneg_left (by omega) (by omega)
  obtain rfl | rfl | rfl : d = e + 1 ∨ d = e ∨ d = e - 1 := by omega
  · have hfall : (e + 3 - w) * (e - k) ≤ t * (e - k) :=
      Int.mul_le_mul_of_nonneg_right (by omega) (by omega)
    linarith
  · have hstay : (d + 2 - w) * d ≤ t * d := Int.mul_le_mul_of_nonneg_right (by omega) (by omega)
    have hkd : 0 < k * d := Int.mul_pos (by omega) (by omega)
    linarith
  · have hrise : (e + 1 - w) * (e + k) ≤ t * (e + k) :=
      Int.mul_le_mul_of_nonneg_right (by omega) (by omega)
    -- A step upwards is made only where the iterate has reached the amplification.
    have hhigh : w ≤ e := by
      by_contra hlow
      have hterms : 0 ≤ t * (e + k) := Int.mul_nonneg ht (by omega)
      have hneg : (e - 1) * (e - ann) < 0 :=
        Int.mul_neg_of_pos_of_neg (by omega) (by omega)
      linarith
    have hkw : w * k ≤ e * k := Int.mul_le_mul_of_nonneg_right hhigh (by omega)
    have hmore : w * 1 ≤ w * k := Int.mul_le_mul_of_nonneg_left (by omega) (by omega)
    linarith

theorem length_le_sumOf {xs : List Int} (h : ∀ x ∈ xs, 0 < x) : xs.length ≤ sumOf xs := by
  induction xs with
  | nil => simp [sumOf]
  | cons x rest ih =>
      rw [List.forall_mem_cons] at h
      have hrest := ih h.2
      rw [List.length_cons, sumOf_cons]
      omega

theorem step_le_sumOf {amp ann e : Int} (hn : 2 ≤ balances.length) (h : ∀ x ∈ balances, 0 < x)
    (hann : (balances.length : Int) ^ balances.length ≤ ann) (hsum : sumOf balances ≤ d)
    (he : invariantStep amp ann balances.length balances d = .ok e) (hrise : e - d ≤ 1)
    (hfall : d - e ≤ 1) : e ≤ sumOf balances := by
  have hne : balances ≠ [] := List.length_pos_iff.1 (by omega)
  have hcount := length_le_sumOf h
  obtain ⟨t, ht, hden, hquotient⟩ := invariantStep_eq_ok_iff.1 he
  have hterm := lt_productTerm_add hne h hsum ht
  have htpos := (productTerm_le (by omega) (by omega) h ht).1
  have hfloor := fdiv_mul_le ((ann * sumOf balances + t * balances.length) * d) hden
  rw [← hquotient] at hfloor
  have hpow := two_pow_add_le_pow hn
  have hfour : (2 : Int) ^ 2 ≤ 2 ^ balances.length := pow_le_pow_right₀ (by decide) hn
  by_contra hlt
  have hbelow : ann * sumOf balances * d ≤ ann * (e - 1) * d := by
    refine Int.mul_le_mul_of_nonneg_right ?_ (by omega)
    exact Int.mul_le_mul_of_nonneg_left (by omega) (by omega)
  have hslope : t * ((balances.length + 1) * e - balances.length * d) ≤ d * (e - ann) := by
    linarith
  exact not_close_above (by omega) (by omega) (by omega) htpos hterm (by omega) hslope
    ⟨hrise, hfall⟩

/-- What is computed does not exceed the sum of the balances, provided that it is answered only
where two iterates differ by one at most. -/
theorem invariant_le_sumOf {solver : Solver} {amp : Int} (htolerance : solver.tolerance ≤ 1)
    (hamp : 1 ≤ amp) (hn : 2 ≤ balances.length) (h : ∀ x ∈ balances, 0 < x)
    (hd : invariant solver amp balances = .ok d) : d ≤ sumOf balances := by
  have hne : balances ≠ [] := List.length_pos_iff.1 (by omega)
  obtain ⟨p, hlast⟩ := exists_lastStep (by omega) hne h hd
  have hrise := hlast.rise
  have hfall := hlast.fall
  by_contra hlt
  have hann : (balances.length : Int) ^ balances.length ≤ amp * balances.length ^ balances.length :=
    le_mul_of_one_le_left (by positivity) hamp
  exact hlt (step_le_sumOf hn h hann (by omega) hlast.step (by omega) (by omega))

/-- A pool of four assets with much of the first, where the iterates fall so far that the first
quotient of the product term is zero. -/
def lopsided : List Int := [10000000, 1, 1, 1]

theorem invariant_le_sumOf_lopsided :
    (∃ d, invariant {} 1 [100000, 1, 1, 1] = .ok d ∧ d ≤ sumOf [100000, 1, 1, 1]) ∧
      iterate 1 (annOf 1 lopsided) 4 lopsided 34 = .ok 6282 ∧
      productTerm 4 6282 lopsided = .ok 0 ∧
      iterate 1 (annOf 1 lopsided) 4 lopsided 35 = .ok 10039218 ∧ sumOf lopsided < 10039218 := by
  refine ⟨?_, rfl, rfl, rfl, by decide⟩
  obtain ⟨d, hd⟩ : ∃ d, invariant {} 1 [100000, 1, 1, 1] = .ok d := ⟨_, rfl⟩
  exact ⟨d, hd, invariant_le_sumOf (by decide) (by decide) (by decide) (by decide) hd⟩

end MarketMaker.StableSwap
