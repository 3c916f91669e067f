import MarketMaker.Text.Numeral

/-! # Numerals that are written

The decimal digits of a number are ASCII digits, as few as the number needs, and they give it
back. -/

namespace MarketMaker.Text

theorem isAsciiDigit_iff {c : Char} : isAsciiDigit c = true ↔ c.isDigit = true := by
  simp only [isAsciiDigit, Char.isDigit, Bool.and_eq_true, decide_eq_true_eq]
  exact Iff.rfl

theorem isAsciiDigit_of_mem_toDigits {n : Nat} {c : Char} (h : c ∈ Nat.toDigits 10 n) :
    isAsciiDigit c = true :=
  isAsciiDigit_iff.2 (Nat.isDigit_of_mem_toDigits (by decide) (by decide) h)

theorem ofAsciiDigits_toDigits (n : Nat) : ofAsciiDigits (Nat.toDigits 10 n) = n :=
  Nat.ofDigitChars_eq_foldl.symm.trans Nat.ofDigitChars_ten_toDigits

theorem exists_toDigits_eq_cons (n : Nat) :
    ∃ c rest, Nat.toDigits 10 n = c :: rest ∧ isAsciiDigit c = true := by
  cases h : Nat.toDigits 10 n with
  | nil => exact absurd h Nat.toDigits_ne_nil
  | cons c rest => exact ⟨c, rest, rfl, isAsciiDigit_of_mem_toDigits (h ▸ List.mem_cons_self)⟩

/-- Digits begin with a zero only where there is nothing else. -/
theorem toDigits_head {n : Nat} {rest : List Char} (h : Nat.toDigits 10 n = '0' :: rest) :
    rest = [] := by
  induction n using Nat.strongRecOn generalizing rest with
  | ind n ih =>
      rcases Nat.lt_or_ge n 10 with hlt | hge
      · rw [Nat.toDigits_of_lt_base hlt] at h
        exact (List.cons.inj h).2.symm
      · rw [Nat.toDigits_of_base_le (by decide) hge] at h
        cases hfirst : Nat.toDigits 10 (n / 10) with
        | nil => exact absurd hfirst Nat.toDigits_ne_nil
        | cons c more =>
            rw [hfirst] at h
            obtain ⟨rfl, -⟩ := List.cons.inj h
            obtain rfl := ih (n / 10) (by omega) hfirst
            have hzero := ofAsciiDigits_toDigits (n / 10)
            rw [hfirst] at hzero
            change 0 = n / 10 at hzero
            omega

theorem length_toDigits_le {n width : Nat} (hw : 0 < width) (h : n < Nat.pow 10 width) :
    (Nat.toDigits 10 n).length ≤ width :=
  (Nat.length_toDigits_le_iff (by decide) hw).2 h

theorem lt_pow_of_le {n width limit : Nat} (h : n < Nat.pow 10 width) (hle : width ≤ limit) :
    n < Nat.pow 10 limit :=
  Nat.lt_of_lt_of_le h (Nat.pow_le_pow_right (by decide) hle)

theorem lt_writeLimit {n width : Nat} (h : n < Nat.pow 10 width) (hle : width ≤ digitLimit) :
    n < writeLimit := by
  unfold writeLimit
  exact lt_pow_of_le h hle

/-- A number that can be written has no more digits than are read. -/
theorem length_toDigits_le_digitLimit {n : Nat} (h : n < writeLimit) :
    (Nat.toDigits 10 n).length ≤ digitLimit := by
  unfold writeLimit at h
  exact length_toDigits_le (by decide) h

def ofNumeral : List Char → Int
  | '-' :: digits => -(ofAsciiDigits digits : Int)
  | digits => ofAsciiDigits digits

/-- An integer is written as its digits, after a minus sign where it is below zero. -/
theorem toList_toString (n : Int) :
    (toString n).toList =
      if 0 ≤ n then Nat.toDigits 10 n.toNat else '-' :: Nat.toDigits 10 (-n).toNat := by
  rw [Int.toString_eq_repr, Int.repr_eq_if]
  split
  · rw [Nat.toList_repr]
  · rw [String.toList_append, Nat.toList_repr]
    rfl

theorem ofNumeral_toDigits (n : Nat) : ofNumeral (Nat.toDigits 10 n) = n := by
  unfold ofNumeral
  split
  · rename_i digits heq
    have hsign : '-' ∈ Nat.toDigits 10 n := heq ▸ List.mem_cons_self
    cases isAsciiDigit_of_mem_toDigits hsign
  · rw [ofAsciiDigits_toDigits]

theorem ofNumeral_toString (n : Int) : ofNumeral (toString n).toList = n := by
  rw [toList_toString]
  split
  · rename_i h
    rw [ofNumeral_toDigits, Int.toNat_of_nonneg h]
  · rename_i h
    rw [ofNumeral, ofAsciiDigits_toDigits]
    omega

end MarketMaker.Text
