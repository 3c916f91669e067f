import MarketMaker.Proofs.Ratio.Text

/-! # Decimals

A ratio is written as a decimal: digits, or a point with at most eighteen digits behind it. On ASCII
texts the reader accepts decimals between blanks and nothing else, and it takes each for the units
that its digits stand for; only the digits before the point can be too many for it. -/

namespace MarketMaker

namespace Text

/-! ## Blanks and digits of ASCII -/

theorem isDigit_eq_of_ascii {c : Char} (h : c.toNat < 128) : isDigit c = isAsciiDigit c := by
  have hall : ∀ n < 128, isDigit (Char.ofNat n) = isAsciiDigit (Char.ofNat n) := by decide
  rw [← Char.ofNat_toNat c]
  exact hall c.toNat h

theorem toNat_lt_of_isAsciiDigit {c : Char} (h : isAsciiDigit c = true) : c.toNat < 128 := by
  have hdigit := toNat_of_isAsciiDigit h
  omega

/-- What is trimmed stood at the ends. -/
theorem exists_eq_trim (drop : Char → Bool) (s : List Char) :
    ∃ lead trail, s = lead ++ trim drop s ++ trail ∧ (∀ c ∈ lead, drop c = true) ∧
      ∀ c ∈ trail, drop c = true := by
  have hrest := congrArg List.reverse
    (List.takeWhile_append_dropWhile (p := drop) (l := (s.dropWhile drop).reverse))
  rw [List.reverse_append, List.reverse_reverse] at hrest
  refine ⟨s.takeWhile drop, ((s.dropWhile drop).reverse.takeWhile drop).reverse, ?_,
    fun c hc => List.mem_takeWhile_imp hc,
    fun c hc => List.mem_takeWhile_imp (List.mem_reverse.1 hc)⟩
  rw [trim, List.append_assoc, hrest, List.takeWhile_append_dropWhile]

theorem dropWhile_append {drop : Char → Bool} {lead rest : List Char}
    (hlead : ∀ c ∈ lead, drop c = true) (hrest : ∀ c ∈ rest.head?, drop c = false) :
    (lead ++ rest).dropWhile drop = rest := by
  rw [List.dropWhile_append_of_pos hlead]
  cases rest with
  | nil => rfl
  | cons c more => rw [List.dropWhile_cons_of_neg (by simp [hrest c rfl])]

/-- What is not blank is kept between blanks. -/
theorem trim_append {drop : Char → Bool} {lead body trail : List Char}
    (hlead : ∀ c ∈ lead, drop c = true) (htrail : ∀ c ∈ trail, drop c = true)
    (hne : body ≠ []) (hbody : ∀ c ∈ body, drop c = false) :
    trim drop (lead ++ body ++ trail) = body := by
  have hfirst : (lead ++ (body ++ trail)).dropWhile drop = body ++ trail := by
    refine dropWhile_append hlead fun c hc => hbody c ?_
    obtain ⟨d, more, rfl⟩ := List.exists_cons_of_ne_nil hne
    obtain rfl : d = c := Option.some.inj hc
    exact List.mem_cons_self
  have hlast : (trail.reverse ++ body.reverse).dropWhile drop = body.reverse := by
    refine dropWhile_append (fun c hc => htrail c (List.mem_reverse.1 hc)) fun c hc => hbody c ?_
    exact List.mem_reverse.1 (List.mem_of_head? hc)
  rw [trim, List.append_assoc, hfirst, List.reverse_append, hlast, List.reverse_reverse]

end Text

namespace Ratio

/-! ## Decimals -/

/-- A decimal with its whole digits and those of its fraction: digits, or a point with one to
eighteen digits behind it and any number before it. -/
inductive IsDecimal : (text whole fraction : List Char) → Prop
  | whole {w : List Char} (digits : ∀ c ∈ w, Text.isAsciiDigit c = true) (some : w ≠ []) :
      IsDecimal w w []
  | point {w f : List Char} (digits : ∀ c ∈ w, Text.isAsciiDigit c = true)
      (fraction : ∀ c ∈ f, Text.isAsciiDigit c = true) (some : f ≠ [])
      (length : f.length ≤ places) : IsDecimal (w ++ '.' :: f) w f

/-- The units that a whole part and a fraction stand for. -/
def unitsOf (whole fraction : List Char) : Nat :=
  Text.ofAsciiDigits whole * 10 ^ places +
    Text.ofAsciiDigits fraction * 10 ^ (places - fraction.length)

theorem point_not_mem {s : List Char} (h : ∀ c ∈ s, Text.isAsciiDigit c = true) : '.' ∉ s :=
  fun hmem => Bool.false_ne_true (h '.' hmem)

namespace IsDecimal

variable {s w f : List Char}

theorem ne_nil (h : IsDecimal s w f) : s ≠ [] := by
  cases h with
  | whole digits some => exact some
  | point => simp

theorem isBlank_eq_false (h : IsDecimal s w f) : ∀ c ∈ s, Text.isBlank c = false := by
  cases h with
  | whole digits => exact fun c hc => Text.isBlank_of_isAsciiDigit (digits c hc)
  | point digits fraction =>
      intro c hc
      rcases List.mem_append.1 hc with hc | hc
      · exact Text.isBlank_of_isAsciiDigit (digits c hc)
      · rcases List.mem_cons.1 hc with rfl | hc
        · decide
        · exact Text.isBlank_of_isAsciiDigit (fraction c hc)

theorem digits (h : IsDecimal s w f) : ∀ c ∈ w, Text.isAsciiDigit c = true := by
  cases h with
  | whole digits => exact digits
  | point digits => exact digits

/-- The reader splits a decimal into its digits. -/
theorem exists_split (h : IsDecimal s w f) : ∃ point, split s = (w, point) ∧ point.getD [] = f ∧
    (∀ c ∈ f, Text.isAsciiDigit c = true) ∧ f.length ≤ places ∧ (w ≠ [] ∨ f ≠ []) ∧
      (point.isSome = true → f ≠ []) := by
  cases h with
  | whole digits some =>
      exact ⟨none, split_of_not_mem (point_not_mem digits), rfl, by simp [some]⟩
  | point digits fraction some length =>
      exact ⟨_, split_append (point_not_mem digits), rfl, fraction, length, .inr some,
        fun _ => some⟩

end IsDecimal

/-! ## The two parts -/

theorem allDigits_iff_of_ascii {s : List Char} (hascii : ∀ c ∈ s, c.toNat < 128) :
    allDigits s = true ↔ s ≠ [] ∧ ∀ c ∈ s, Text.isAsciiDigit c = true := by
  simp only [allDigits, Bool.and_eq_true, decide_eq_true_eq, List.all_eq_true]
  refine and_congr_right fun _ => forall₂_congr fun c hc => ?_
  rw [Text.isDigit_eq_of_ascii (hascii c hc)]

theorem allDigits_orZero_iff {s : List Char} (hascii : ∀ c ∈ s, c.toNat < 128) :
    allDigits (orZero s) = true ↔ ∀ c ∈ s, Text.isAsciiDigit c = true := by
  unfold orZero
  split
  · rename_i hnil
    subst hnil
    simp [allDigits, Text.isDigit, Text.decimalDigit?_zero]
  · rename_i hne
    rw [allDigits_iff_of_ascii hascii]
    exact and_iff_right hne

theorem readDigits_eq_ok_iff {s : List Char} {n : Nat} (hne : s ≠ [])
    (h : ∀ c ∈ s, Text.isAsciiDigit c = true) :
    readDigits s = .ok n ↔ s.length ≤ Text.digitLimit ∧ n = Text.ofAsciiDigits s := by
  rw [readDigits, Text.readNatural_eq hne h]
  by_cases hlong : Text.digitLimit < s.length
  · simp [hlong, Nat.not_le.2 hlong]
  · simp [hlong, Nat.not_lt.1 hlong, eq_comm]

/-- No digits before the point are read as a zero. -/
theorem readDigits_orZero_iff {s : List Char} {n : Nat}
    (h : ∀ c ∈ s, Text.isAsciiDigit c = true) :
    readDigits (orZero s) = .ok n ↔ s.length ≤ Text.digitLimit ∧ n = Text.ofAsciiDigits s := by
  unfold orZero
  split
  · rename_i hnil
    subst hnil
    rw [readDigits_eq_ok_iff (by simp) (List.forall_mem_singleton.2 rfl)]
    simp [Text.digitLimit, Text.ofAsciiDigits]
  · rename_i hne
    exact readDigits_eq_ok_iff hne h

theorem readDigits_padRight_iff {s : List Char} {n : Nat}
    (h : ∀ c ∈ s, Text.isAsciiDigit c = true) (hlength : s.length ≤ places) :
    readDigits (padRight places s) = .ok n ↔
      n = Text.ofAsciiDigits s * 10 ^ (places - s.length) := by
  have hpadded : (padRight places s).length = places := by
    rw [padRight, List.length_append, List.length_replicate]
    omega
  have hdigits : ∀ c ∈ padRight places s, Text.isAsciiDigit c = true := by
    intro c hc
    rcases List.mem_append.1 hc with hc | hc
    · exact h c hc
    · rw [List.eq_of_mem_replicate hc]
      rfl
  rw [readDigits_eq_ok_iff (List.ne_nil_of_length_pos (by rw [hpadded]; decide)) hdigits, hpadded,
    padRight, Text.ofAsciiDigits_append_zeros]
  exact and_iff_right (by decide)

/-! ## Reading -/

/-- A text is read through the two parts around its point. -/
theorem ofText_eq_ok_iff {text : String} {r : Ratio} {whole : List Char}
    {point : Option (List Char)}
    (hsplit : split (Text.trim Text.isBlank text.toList) = (whole, point)) :
    ofText text = .ok r ↔ (whole ≠ [] ∨ point.getD [] ≠ []) ∧ allDigits (orZero whole) = true ∧
      (point.isSome = true → allDigits (point.getD []) = true) ∧ (point.getD []).length ≤ places ∧
      ∃ n m, readDigits (orZero whole) = .ok n ∧
        readDigits (padRight places (point.getD [])) = .ok m ∧ r = ⟨n * unit + m⟩ := by
  unfold ofText
  rw [hsplit]
  dsimp only
  simp only [Bool.and_eq_true, decide_eq_true_eq, Bool.or_eq_true, Bool.not_eq_true',
    ← Bool.not_eq_true]
  by_cases hnone : whole = [] ∧ point.getD [] = []
  · simp [hnone]
  by_cases hdigits : ¬allDigits (orZero whole) = true ∨
      point.isSome = true ∧ ¬allDigits (point.getD []) = true
  · grind
  rw [if_neg hnone, if_neg hdigits]
  by_cases hlong : places < (point.getD []).length
  · simp [hlong, Nat.not_le.2 hlong]
  rw [if_neg hlong]
  have hread : (whole ≠ [] ∨ point.getD [] ≠ []) ∧ allDigits (orZero whole) = true ∧
      (point.isSome = true → allDigits (point.getD []) = true) ∧
      (point.getD []).length ≤ places := by grind
  cases hn : readDigits (orZero whole) with
  | error e => simp
  | ok n =>
      cases hm : readDigits (padRight places (point.getD [])) with
      | error e => simp
      | ok m =>
          obtain ⟨hsome, hwhole, hfraction, hlength⟩ := hread
          constructor
          · intro h
            exact ⟨hsome, hwhole, hfraction, hlength, n, m, rfl, rfl, (Except.ok.inj h).symm⟩
          · rintro ⟨-, -, -, -, _, _, hn', hm', rfl⟩
            cases hn'
            cases hm'
            rfl

/-- A decimal is read, unless its whole digits are too many, and as the units that it stands for. -/
theorem IsDecimal.ofText_eq_ok_iff {text : String} {r : Ratio} {w f : List Char}
    (h : IsDecimal (Text.trim Text.isBlank text.toList) w f) :
    ofText text = .ok r ↔ w.length ≤ Text.digitLimit ∧ r.atomics = unitsOf w f := by
  obtain ⟨point, hsplit, rfl, hfraction, hlength, hsome, hpoint⟩ := h.exists_split
  have hwhole : allDigits (orZero w) = true :=
    (allDigits_orZero_iff fun c hc => Text.toNat_lt_of_isAsciiDigit (h.digits c hc)).2 h.digits
  have hdigits : point.isSome = true → allDigits (point.getD []) = true := fun h =>
    (allDigits_iff_of_ascii fun c hc => Text.toNat_lt_of_isAsciiDigit (hfraction c hc)).2
      ⟨hpoint h, hfraction⟩
  simp only [Ratio.ofText_eq_ok_iff hsplit, hwhole, readDigits_orZero_iff h.digits,
    readDigits_padRight_iff hfraction hlength]
  constructor
  · rintro ⟨-, -, -, -, n, m, ⟨hlimit, rfl⟩, rfl, rfl⟩
    exact ⟨hlimit, rfl⟩
  · rintro ⟨hlimit, hvalue⟩
    exact ⟨hsome, trivial, hdigits, hlength, _, _, ⟨hlimit, rfl⟩, rfl, ext_iff.2 hvalue⟩

theorem exists_isDecimal_of_ofText {text : String} {r : Ratio}
    (hascii : ∀ c ∈ text.toList, c.toNat < 128) (h : ofText text = .ok r) :
    ∃ w f, IsDecimal (Text.trim Text.isBlank text.toList) w f := by
  obtain ⟨lead, trail, hends, -, -⟩ := Text.exists_eq_trim Text.isBlank text.toList
  have hbody : ∀ c ∈ Text.trim Text.isBlank text.toList, c.toNat < 128 := fun c hc =>
    hascii c (hends ▸ by simp [hc])
  by_cases hpoint : '.' ∈ Text.trim Text.isBlank text.toList
  · obtain ⟨w, f, hs, hw⟩ := List.eq_append_cons_of_mem hpoint
    rw [hs] at hbody ⊢
    have hwascii : ∀ c ∈ w, c.toNat < 128 := fun c hc => hbody c (by simp [hc])
    have hfascii : ∀ c ∈ f, c.toNat < 128 := fun c hc => hbody c (by simp [hc])
    obtain ⟨-, hwhole, hfraction, hlength, -⟩ :=
      (ofText_eq_ok_iff (hs ▸ split_append hw)).1 h
    obtain ⟨hne, hdigits⟩ := (allDigits_iff_of_ascii hfascii).1 (hfraction rfl)
    exact ⟨w, f, .point ((allDigits_orZero_iff hwascii).1 hwhole) hdigits hne hlength⟩
  · obtain ⟨hsome, hwhole, -⟩ := (ofText_eq_ok_iff (split_of_not_mem hpoint)).1 h
    exact ⟨_, [], .whole ((allDigits_orZero_iff hbody).1 hwhole) (hsome.resolve_right (by simp))⟩

/-! ## Writing -/

/-- A ratio is written as a decimal. -/
theorem isDecimal_text (r : Ratio) :
    IsDecimal r.text.toList (digits (r.atomics / unit)) (keptDigits (r.atomics % unit)) := by
  have hdigits : ∀ c ∈ digits (r.atomics / unit), Text.isAsciiDigit c = true :=
    fun _ => Text.isAsciiDigit_of_mem_toDigits
  rw [toList_text]
  split
  · rename_i hzero
    rw [keptDigits_eq_nil_iff.2 hzero]
    exact .whole hdigits Nat.toDigits_ne_nil
  · rename_i hne
    exact .point hdigits (fun _ => isAsciiDigit_of_mem_keptDigits) (mt keptDigits_eq_nil_iff.1 hne)
      (length_keptDigits_le (Nat.mod_lt _ (by decide)))

theorem unitsOf_text (r : Ratio) :
    unitsOf (digits (r.atomics / unit)) (keptDigits (r.atomics % unit)) = r.atomics := by
  rw [unitsOf, ofAsciiDigits_keptDigits (Nat.mod_lt _ (by decide)), digits,
    Text.ofAsciiDigits_toDigits]
  exact Nat.div_add_mod' r.atomics unit

theorem trim_text (r : Ratio) : Text.trim Text.isBlank r.text.toList = r.text.toList :=
  Text.trim_eq_self r.isDecimal_text.isBlank_eq_false

/-- A ratio is read back from its text, if its whole part is short enough to be written. -/
theorem ofText_text {r : Ratio} (h : r.atomics / unit < Text.writeLimit) :
    ofText r.text = .ok r := by
  have hdecimal := r.isDecimal_text
  rw [← r.trim_text] at hdecimal
  exact hdecimal.ofText_eq_ok_iff.2 ⟨Text.length_toDigits_le_digitLimit h, r.unitsOf_text.symm⟩

theorem text_injective : Function.Injective text := by
  intro r r' htext
  obtain ⟨point, hsplit, hfraction, -⟩ := r.isDecimal_text.exists_split
  obtain ⟨point', hsplit', hfraction', -⟩ := r'.isDecimal_text.exists_split
  rw [htext, hsplit', Prod.mk.injEq] at hsplit
  obtain ⟨hwhole, rfl⟩ := hsplit
  rw [ext_iff, ← r.unitsOf_text, ← r'.unitsOf_text, ← hwhole, ← hfraction, ← hfraction']

/-- No point is written at the end, and no zero at the end of a fraction. -/
theorem getLast?_text (r : Ratio) : r.text.toList.getLast? ≠ some '.' ∧
    ('.' ∈ r.text.toList → r.text.toList.getLast? ≠ some '0') := by
  have hwhole : '.' ∉ digits (r.atomics / unit) :=
    point_not_mem fun _ => Text.isAsciiDigit_of_mem_toDigits
  rw [toList_text]
  split
  · exact ⟨fun hlast => hwhole (List.mem_of_getLast? hlast), fun hpoint => absurd hpoint hwhole⟩
  · rename_i hne
    obtain ⟨c, hc⟩ := Option.ne_none_iff_exists'.1
      (mt List.getLast?_eq_none_iff.1 (mt keptDigits_eq_nil_iff.1 hne))
    have hdigit := isAsciiDigit_of_mem_keptDigits (List.mem_of_getLast? hc)
    have hlast : (digits (r.atomics / unit) ++ '.' :: keptDigits (r.atomics % unit)).getLast? =
        some c := by
      rw [List.append_cons, List.getLast?_append, hc, Option.some_or]
    rw [hlast]
    refine ⟨?_, fun _ => hc ▸ getLast?_keptDigits _⟩
    rintro ⟨⟩
    cases hdigit

/-- Ratios are written as texts of their own, without a zero or a point that is not needed, and read
back from them. Of the texts in ASCII those are read that are decimals between blanks, with no more
digits before the point than a number may have, and they are read as what their digits stand for. -/
theorem decimals_written_and_read :
    (∀ r : Ratio, r.atomics / unit < Text.writeLimit → ofText r.text = .ok r) ∧
    Function.Injective text ∧
    (∀ r : Ratio, r.text.toList.getLast? ≠ some '.' ∧
      ('.' ∈ r.text.toList → r.text.toList.getLast? ≠ some '0')) ∧
    ∀ s : String, (∀ c ∈ s.toList, c.toNat < 128) → ∀ r, ofText s = .ok r ↔
      ∃ lead body trail whole fraction, s.toList = lead ++ body ++ trail ∧
        (∀ c ∈ lead, Text.isBlank c = true) ∧ (∀ c ∈ trail, Text.isBlank c = true) ∧
        IsDecimal body whole fraction ∧ whole.length ≤ Text.digitLimit ∧
        r.atomics = unitsOf whole fraction := by
  refine ⟨fun r => ofText_text, text_injective, getLast?_text, fun s hascii r => ?_⟩
  constructor
  · intro h
    obtain ⟨lead, trail, hends, hlead, htrail⟩ := Text.exists_eq_trim Text.isBlank s.toList
    obtain ⟨whole, fraction, hdecimal⟩ := exists_isDecimal_of_ofText hascii h
    exact ⟨lead, _, trail, whole, fraction, hends, hlead, htrail, hdecimal,
      hdecimal.ofText_eq_ok_iff.1 h⟩
  · rintro ⟨lead, body, trail, whole, fraction, hends, hlead, htrail, hdecimal, hread⟩
    have hbody := Text.trim_append hlead htrail hdecimal.ne_nil hdecimal.isBlank_eq_false
    rw [← hends] at hbody
    rw [← hbody] at hdecimal
    exact hdecimal.ofText_eq_ok_iff.2 hread

/-- Blanks, a zero in front and one behind are read over, and none is written. -/
theorem decimals_written_and_read_padded :
    ofText "\t01.050 " = .ok ⟨1050000000000000000⟩ ∧
      (⟨1050000000000000000⟩ : Ratio).text = "1.05" ∧
      ofText (⟨1050000000000000000⟩ : Ratio).text = .ok ⟨1050000000000000000⟩ := by
  obtain ⟨hback, -, -, hread⟩ := decimals_written_and_read
  have hascii : ∀ c ∈ "\t01.050 ".toList, c.toNat < 128 := by simp
  have hwhole : ∀ c ∈ ['0', '1'], Text.isAsciiDigit c = true := List.all_eq_true.1 rfl
  have hfraction : ∀ c ∈ ['0', '5', '0'], Text.isAsciiDigit c = true := List.all_eq_true.1 rfl
  have hdecimal : IsDecimal (['0', '1'] ++ '.' :: ['0', '5', '0']) ['0', '1'] ['0', '5', '0'] :=
    .point hwhole hfraction (by decide) (by decide)
  refine ⟨(hread _ hascii _).2 ⟨['\t'], _, [' '], _, _, rfl, List.forall_mem_singleton.2 rfl,
    List.forall_mem_singleton.2 rfl, hdecimal, by decide, rfl⟩, rfl, hback _ ?_⟩
  exact Text.lt_writeLimit (by decide : _ < Nat.pow 10 1) (by decide)

/-- A decimal with more digits before its point than a number may have is not read, not even where
they are all zero. -/
theorem not_read_overlong :
    IsDecimal (String.ofList (List.replicate 4301 '0')).toList (List.replicate 4301 '0') [] ∧
      unitsOf (List.replicate 4301 '0') [] = 0 ∧
      ¬∃ r, ofText (String.ofList (List.replicate 4301 '0')) = .ok r := by
  have hdecimal : IsDecimal (List.replicate 4301 '0') (List.replicate 4301 '0') [] :=
    .whole (fun c hc => by rw [List.eq_of_mem_replicate hc]; rfl)
      (List.ne_nil_of_length_pos (by rw [List.length_replicate]; decide))
  have htrimmed : IsDecimal (Text.trim Text.isBlank
      (String.ofList (List.replicate 4301 '0')).toList) (List.replicate 4301 '0') [] := by
    rw [String.toList_ofList, Text.trim_eq_self hdecimal.isBlank_eq_false]
    exact hdecimal
  refine ⟨String.toList_ofList.symm ▸ hdecimal, ?_, ?_⟩
  · have hzeros := Text.ofAsciiDigits_zeros 4301 []
    rw [List.append_nil] at hzeros
    rw [unitsOf, hzeros]
    rfl
  · rintro ⟨r, hr⟩
    have hlimit := (htrimmed.ofText_eq_ok_iff.1 hr).1
    rw [List.length_replicate] at hlimit
    exact absurd hlimit (by decide)

end Ratio

end MarketMaker
