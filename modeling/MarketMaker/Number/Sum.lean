namespace MarketMaker

def sumOf : List Int → Int
  | [] => 0
  | x :: rest => x + sumOf rest

theorem sumOf_nil : sumOf [] = 0 := rfl

theorem sumOf_cons {x : Int} {rest : List Int} : sumOf (x :: rest) = x + sumOf rest := rfl

theorem sumOf_append {xs ys : List Int} : sumOf (xs ++ ys) = sumOf xs + sumOf ys := by
  induction xs with
  | nil => simp [sumOf]
  | cons x rest ih => simp only [List.cons_append, sumOf, ih]; omega

theorem sumOf_perm {xs ys : List Int} (h : xs.Perm ys) : sumOf xs = sumOf ys := by
  induction h with
  | nil => rfl
  | cons x _ ih => rw [sumOf_cons, sumOf_cons, ih]
  | swap x y rest =>
      simp only [sumOf_cons]
      omega
  | trans _ _ ih ih' => rw [ih, ih']

theorem sumOf_nonneg {xs : List Int} (h : ∀ x ∈ xs, 0 ≤ x) : 0 ≤ sumOf xs := by
  induction xs with
  | nil => exact Int.le_refl 0
  | cons x rest ih =>
      rw [List.forall_mem_cons] at h
      exact Int.add_nonneg h.1 (ih h.2)

end MarketMaker
