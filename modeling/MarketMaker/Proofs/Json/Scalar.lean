import Mathlib.Data.List.TakeDrop
import MarketMaker.Json.Reader
import MarketMaker.Json.Writer
import MarketMaker.Proofs.Numeral

/-! # Texts and integers that are read back

A written text is read back code point by code point, each from the escape it was written with. A
written integer is read back as the whole of its digits, since what closes a value is no digit, no
point and no exponent. -/

namespace MarketMaker.Json

/-- What can stand after a value: nothing, a comma or the end of the list or object around it. -/
inductive Closes : List Char → Prop
  | nothing : Closes []
  | comma (rest : List Char) : Closes (',' :: rest)
  | bracket (rest : List Char) : Closes (']' :: rest)
  | brace (rest : List Char) : Closes ('\x7d' :: rest)

/-! ## Texts -/

theorem hexUnit?_hexDigits {n : Nat} (h : n < 0x10000) (rest : List Char) :
    hexUnit? (Text.hexDigits 4 n ++ rest) = some (n, rest) := by
  have hdigit (k : Nat) : Text.hexValue? (Text.hexDigit (k % 16)) = some (k % 16) :=
    Text.hexValue?_hexDigit (Nat.mod_lt k (by decide))
  simp only [Text.hexDigits, List.nil_append, List.cons_append, hexUnit?, hdigit,
    Option.bind_eq_bind, Option.bind_some, Option.some.injEq, Prod.mk.injEq, and_true]
  omega

theorem escape?_hexDigits {n : Nat} (h : n < 0x20) (rest : List Char) :
    escape? ('u' :: Text.hexDigits 4 n ++ rest) = some (n, rest) := by
  have hhigh : Text.isHighSurrogate n = false := by
    simp only [Text.isHighSurrogate, Bool.and_eq_false_iff, decide_eq_false_iff_not]
    omega
  rw [List.cons_append, escape?, codeEscape?, hexUnit?_hexDigits (by omega)]
  simp [hhigh]

/-- One step reads one character, escaped or not. -/
theorem textBody?_escapeChar (fuel : Nat) (read : List Nat) (c : Char) (rest : List Char) :
    textBody? (fuel + 1) read (escapeChar c ++ rest) = textBody? fuel (c.toNat :: read) rest := by
  unfold escapeChar
  split
  next hquote =>
    subst hquote
    rfl
  next hquote =>
    split
    next hslash =>
      subst hslash
      rfl
    next hslash =>
      split
      next hcontrol =>
        have hread := escape?_hexDigits hcontrol rest
        rw [List.cons_append, textBody?, hread]
      next hcontrol =>
        simp [textBody?, hcontrol]

theorem textBody?_flatMap (s rest : List Char) {fuel : Nat} (h : s.length < fuel)
    (read : List Nat) :
    textBody? fuel read (s.flatMap escapeChar ++ '"' :: rest) =
      some (⟨read.reverse ++ s.map Char.toNat⟩, rest) := by
  induction s generalizing fuel read with
  | nil =>
      obtain ⟨fuel, rfl⟩ := Nat.exists_eq_add_one_of_ne_zero (Nat.ne_of_gt h)
      simp [textBody?]
  | cons c more ih =>
      obtain ⟨fuel, rfl⟩ := Nat.exists_eq_add_one_of_ne_zero (Nat.ne_zero_of_lt h)
      rw [List.flatMap_cons, List.append_assoc, textBody?_escapeChar,
        ih (Nat.lt_of_succ_lt_succ h)]
      simp

theorem length_le_flatMap (s : List Char) : s.length ≤ (s.flatMap escapeChar).length := by
  induction s with
  | nil => exact Nat.le_refl 0
  | cons c more ih =>
      have hone : 1 ≤ (escapeChar c).length := by
        unfold escapeChar
        split
        · simp
        · split
          · simp
          · split <;> simp
      rw [List.flatMap_cons, List.length_append, List.length_cons]
      omega

theorem toList_renderText (s : String) :
    (renderText s).toList = '"' :: (s.toList.flatMap escapeChar ++ ['"']) := by
  simp [renderText]

/-- After the first quote a written text is read up to its last one. -/
theorem textBody?_renderText (s : String) (rest : List Char) (fuel : Nat)
    (h : (renderText s).toList.length ≤ fuel + 1) :
    textBody? fuel [] (s.toList.flatMap escapeChar ++ '"' :: rest) =
      some (Text.CodePoints.ofString s, rest) := by
  have hlength := length_le_flatMap s.toList
  rw [toList_renderText, List.length_cons, List.length_append, List.length_singleton] at h
  rw [textBody?_flatMap s.toList rest (by omega)]
  rfl

/-! ## Integers -/

theorem not_isAsciiDigit_of_closes {rest : List Char} (h : Closes rest) (c : Char)
    (hc : rest.head? = some c) : Text.isAsciiDigit c = false := by
  cases h <;> simp at hc <;> subst hc <;> decide

theorem span_append {p : Char → Bool} {s rest : List Char} (hs : ∀ c ∈ s, p c = true)
    (hrest : ∀ c, rest.head? = some c → p c = false) : (s ++ rest).span p = (s, rest) := by
  rw [List.span_eq_takeWhile_dropWhile, List.takeWhile_append_of_pos hs,
    List.dropWhile_append_of_pos hs]
  cases rest with
  | nil => simp
  | cons c more => simp [hrest c rfl]

theorem wholeDigits?_toDigits (n : Nat) {rest : List Char} (h : Closes rest) :
    wholeDigits? (Nat.toDigits 10 n ++ rest) = some (Nat.toDigits 10 n, rest) := by
  have hspan : (Nat.toDigits 10 n ++ rest).span Text.isAsciiDigit = (Nat.toDigits 10 n, rest) :=
    span_append (fun _ => Text.isAsciiDigit_of_mem_toDigits) (not_isAsciiDigit_of_closes h)
  unfold wholeDigits?
  split
  next more heq =>
    cases hdigits : Nat.toDigits 10 n with
    | nil => exact absurd hdigits Nat.toDigits_ne_nil
    | cons c digits =>
        rw [hdigits, List.cons_append] at heq
        obtain ⟨rfl, rfl⟩ := List.cons.inj heq
        rw [Text.toDigits_head hdigits, List.nil_append]
  next =>
    simp only [hspan, if_neg Nat.toDigits_ne_nil]

theorem fractionDigits?_of_closes {rest : List Char} (h : Closes rest) :
    fractionDigits? rest = none := by
  cases h <;> rfl

theorem exponentPart?_of_closes {rest : List Char} (h : Closes rest) :
    exponentPart? rest = none := by
  cases h <;> rfl

theorem number_toDigits (negative : Bool) {n : Nat} (hn : n < Text.writeLimit) {rest : List Char}
    (h : Closes rest) :
    number negative (Nat.toDigits 10 n ++ rest) =
      .ok (.int (if negative then -(n : Int) else n), rest) := by
  have hlimit : ¬ Text.digitLimit < (Nat.toDigits 10 n).length :=
    Nat.not_lt.2 (Text.length_toDigits_le_digitLimit hn)
  simp [number, wholeDigits?_toDigits n h, fractionDigits?_of_closes h, exponentPart?_of_closes h,
    hlimit, Text.ofAsciiDigits_toDigits]

end MarketMaker.Json
