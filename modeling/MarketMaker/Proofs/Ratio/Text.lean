import Mathlib.Algebra.Ring.Nat
import Mathlib.Data.List.TakeWhile
import MarketMaker.Proofs.Numeral
import MarketMaker.Ratio.Reader

/-! # Digits of ratios

A ratio is written as its whole part and, after a point, the eighteen digits of its fraction without
the zeros at their end. The reader splits a text at its point and puts those zeros back. -/

namespace MarketMaker

namespace Text

/-! ## Numerals without a sign -/

theorem toNat_of_isAsciiDigit {c : Char} (h : isAsciiDigit c = true) :
    48 ≤ c.toNat ∧ c.toNat ≤ 57 := by
  simp only [isAsciiDigit, Bool.and_eq_true, decide_eq_true_eq] at h
  exact h

theorem decimalDigit?_of_isAsciiDigit {c : Char} (h : isAsciiDigit c = true) :
    decimalDigit? c = some (c.toNat - 48) := by
  obtain ⟨hle, hge⟩ := toNat_of_isAsciiDigit h
  have hzeros : decimalZeros = 0x30 :: decimalZeros.tail := rfl
  have hfirst : (0x30 ≤ c.toNat && c.toNat < 0x30 + 10) = true := by
    simp only [Bool.and_eq_true, decide_eq_true_eq]
    omega
  rw [decimalDigit?, hzeros, List.find?_cons]
  simp only [hfirst, Option.map_some]

theorem isBlank_of_isAsciiDigit {c : Char} (h : isAsciiDigit c = true) : isBlank c = false := by
  obtain ⟨hle, hge⟩ := toNat_of_isAsciiDigit h
  simp only [isBlank, isWhiteSpace, Bool.or_eq_false_iff, Bool.and_eq_false_iff,
    decide_eq_false_iff_not, beq_eq_false_iff_ne]
  omega

theorem digitRun_of_isAsciiDigit {s : List Char} (h : ∀ c ∈ s, isAsciiDigit c = true) :
    digitRun s = (s.map fun c => c.toNat - 48, []) := by
  induction s with
  | nil => rfl
  | cons c rest ih =>
      have hrest := ih fun d hd => h d (List.mem_cons_of_mem c hd)
      simp only [digitRun, decimalDigit?_of_isAsciiDigit (h c List.mem_cons_self), hrest,
        List.map_cons]

theorem ofDigits_map (s : List Char) :
    ofDigits (s.map fun c => c.toNat - 48) = ofAsciiDigits s := by
  rw [ofDigits, List.foldl_map, ofAsciiDigits]

/-- Digits are read as the number that they stand for, unless they are too many. -/
theorem readNatural_eq {s : List Char} (hne : s ≠ []) (h : ∀ c ∈ s, isAsciiDigit c = true) :
    readNatural s = if digitLimit < s.length then .error (.tooLong s.length)
      else .ok (ofAsciiDigits s) := by
  have hstart : startsWithDigit s = true := by
    cases s with
    | nil => exact absurd rfl hne
    | cons c rest =>
        rw [startsWithDigit, decimalDigit?_of_isAsciiDigit (h c List.mem_cons_self)]
        rfl
  simp [readNatural, hstart, digitRun_of_isAsciiDigit h, ofDigits_map]

/-- Nothing is trimmed where nothing is to be dropped. -/
theorem trim_eq_self {drop : Char → Bool} {s : List Char} (h : ∀ c ∈ s, drop c = false) :
    trim drop s = s := by
  have hkept {t : List Char} (ht : ∀ c ∈ t, drop c = false) : t.dropWhile drop = t := by
    cases t with
    | nil => rfl
    | cons c rest => simp [ht c List.mem_cons_self]
  rw [trim, hkept h, hkept fun c hc => h c (List.mem_reverse.1 hc), List.reverse_reverse]

theorem ofAsciiDigits_zeros (n : Nat) (s : List Char) :
    ofAsciiDigits (List.replicate n '0' ++ s) = ofAsciiDigits s := by
  induction n with
  | zero => rfl
  | succ n ih => exact ih

theorem ofAsciiDigits_append_zeros (s : List Char) (n : Nat) :
    ofAsciiDigits (s ++ List.replicate n '0') = ofAsciiDigits s * 10 ^ n := by
  induction n with
  | zero => simp
  | succ n ih =>
      rw [List.replicate_succ', ← List.append_assoc, ofAsciiDigits, List.foldl_append,
        ← ofAsciiDigits, ih]
      change 10 * (ofAsciiDigits s * 10 ^ n) + 0 = _
      rw [Nat.pow_succ, Nat.add_zero, Nat.mul_left_comm, Nat.mul_comm 10]

end Text

namespace Ratio

/-! ## Decimal texts -/

theorem split_of_not_mem {s : List Char} (h : '.' ∉ s) : split s = (s, none) := by
  have hdrop : s.dropWhile (· ≠ '.') = [] :=
    List.dropWhile_eq_nil_iff.2 fun c hc => decide_eq_true fun heq => h (heq ▸ hc)
  rw [split, hdrop]

theorem split_append {s fraction : List Char} (h : '.' ∉ s) :
    split (s ++ '.' :: fraction) = (s, some fraction) := by
  have hs (c : Char) (hc : c ∈ s) : decide (c ≠ '.') = true :=
    decide_eq_true fun heq => h (heq ▸ hc)
  rw [split, List.dropWhile_append_of_pos hs, List.takeWhile_append_of_pos hs]
  simp

/-- The zeros dropped at the end are those that are put back. -/
theorem padRight_dropTrailingZeros (s : List Char) :
    padRight s.length (dropTrailingZeros s) = s := by
  obtain ⟨zeros, kept, hs, hzeros, hkept⟩ : ∃ zeros kept, s.reverse = zeros ++ kept ∧
      (∀ c ∈ zeros, c = '0') ∧ s.reverse.dropWhile (· = '0') = kept :=
    ⟨s.reverse.takeWhile (· = '0'), _, List.takeWhile_append_dropWhile.symm,
      fun c hc => by simpa using List.mem_takeWhile_imp hc, rfl⟩
  have hback : s = kept.reverse ++ zeros.reverse := by
    rw [← List.reverse_append, ← hs, List.reverse_reverse]
  have hwidth : s.length - kept.reverse.length = zeros.reverse.length := by
    have hlength := congrArg List.length hback
    rw [List.length_append] at hlength
    omega
  have hreplicate : zeros.reverse = List.replicate zeros.reverse.length '0' :=
    List.eq_replicate_of_mem fun c hc => hzeros c (List.mem_reverse.1 hc)
  rw [dropTrailingZeros, hkept, padRight, hwidth, ← hreplicate, ← hback]

theorem length_padLeft {width : Nat} {s : List Char} (h : s.length ≤ width) :
    (padLeft width s).length = width := by
  rw [padLeft, List.length_append, List.length_replicate]
  omega

theorem mem_dropTrailingZeros {s : List Char} {c : Char} (h : c ∈ dropTrailingZeros s) : c ∈ s :=
  List.mem_reverse.1 ((List.dropWhile_suffix _).subset (List.mem_reverse.1 h))

theorem length_dropTrailingZeros_le (s : List Char) : (dropTrailingZeros s).length ≤ s.length := by
  have hsuffix := (List.dropWhile_suffix (l := s.reverse) (fun c => decide (c = '0'))).length_le
  rw [dropTrailingZeros, List.length_reverse]
  rwa [List.length_reverse] at hsuffix

/-! ## The fraction -/

def fractionDigits (fraction : Nat) : List Char := padLeft places (digits fraction)

variable {fraction : Nat}

theorem length_fractionDigits (h : fraction < unit) :
    (fractionDigits fraction).length = places :=
  length_padLeft (Text.length_toDigits_le (by decide) h)

theorem isAsciiDigit_of_mem_fractionDigits {c : Char} (h : c ∈ fractionDigits fraction) :
    Text.isAsciiDigit c = true := by
  rcases List.mem_append.1 h with hc | hc
  · rw [List.eq_of_mem_replicate hc]
    rfl
  · exact Text.isAsciiDigit_of_mem_toDigits hc

theorem ofAsciiDigits_fractionDigits (fraction : Nat) :
    Text.ofAsciiDigits (fractionDigits fraction) = fraction := by
  rw [fractionDigits, padLeft, Text.ofAsciiDigits_zeros, digits, Text.ofAsciiDigits_toDigits]

/-- A fraction that is not zero has a digit that is not dropped. -/
theorem dropTrailingZeros_ne_nil (hne : fraction ≠ 0) :
    dropTrailingZeros (fractionDigits fraction) ≠ [] := by
  intro hnil
  have hback := padRight_dropTrailingZeros (fractionDigits fraction)
  rw [hnil, padRight, List.nil_append] at hback
  have hvalue := ofAsciiDigits_fractionDigits fraction
  rw [← hback, ← List.append_nil (List.replicate _ _), Text.ofAsciiDigits_zeros] at hvalue
  exact hne hvalue.symm

def keptDigits (fraction : Nat) : List Char :=
  if fraction = 0 then [] else dropTrailingZeros (fractionDigits fraction)

theorem isAsciiDigit_of_mem_keptDigits {c : Char} (h : c ∈ keptDigits fraction) :
    Text.isAsciiDigit c = true := by
  unfold keptDigits at h
  split at h
  · cases h
  · exact isAsciiDigit_of_mem_fractionDigits (mem_dropTrailingZeros h)

theorem length_keptDigits_le (h : fraction < unit) : (keptDigits fraction).length ≤ places := by
  unfold keptDigits
  split
  · exact Nat.zero_le _
  · exact (length_dropTrailingZeros_le _).trans (length_fractionDigits h).le

theorem keptDigits_eq_nil_iff : keptDigits fraction = [] ↔ fraction = 0 := by
  unfold keptDigits
  split
  · rename_i hzero
    exact iff_of_true rfl hzero
  · rename_i hne
    exact iff_of_false (dropTrailingZeros_ne_nil hne) hne

/-- The digits that are written stand for the whole fraction. -/
theorem ofAsciiDigits_keptDigits (h : fraction < unit) :
    Text.ofAsciiDigits (keptDigits fraction) * 10 ^ (places - (keptDigits fraction).length) =
      fraction := by
  unfold keptDigits
  split
  · rename_i hzero
    rw [hzero]
    rfl
  · have hback := padRight_dropTrailingZeros (fractionDigits fraction)
    rw [length_fractionDigits h] at hback
    rw [← Text.ofAsciiDigits_append_zeros, ← padRight, hback, ofAsciiDigits_fractionDigits]

theorem getLast?_keptDigits (fraction : Nat) : (keptDigits fraction).getLast? ≠ some '0' := by
  unfold keptDigits
  split
  · simp
  · intro hlast
    rw [dropTrailingZeros, List.getLast?_reverse] at hlast
    have hfirst := List.head?_dropWhile_not (fun c => decide (c = '0'))
      (fractionDigits fraction).reverse
    rw [hlast] at hfirst
    simp at hfirst

theorem toList_text (r : Ratio) : r.text.toList =
    if r.atomics % unit = 0 then digits (r.atomics / unit)
    else digits (r.atomics / unit) ++ '.' :: keptDigits (r.atomics % unit) := by
  by_cases hzero : r.atomics % unit = 0
  · simp [text, hzero]
  · simp [text, hzero, keptDigits, fractionDigits]

end Ratio

end MarketMaker
