import MarketMaker.Proofs.Json.Scalar

/-! # Values that are read back

A value is read back from its text when its integers are short enough to be written, its texts are
strings and its lists and objects are nested no deeper than the reader goes. The fuel of the reader
is enough as soon as it is the length of the text. -/

namespace MarketMaker.Json

/-- Values of so many lists and objects inside each other, without decimals and broken texts, whose
integers can be written. -/
inductive Exact : Nat → Json → Prop
  | null {n : Nat} : Exact n .null
  | bool {n : Nat} (b : Bool) : Exact n (.bool b)
  | int {n : Nat} {i : Int} (writable : Text.isWritable i = true) : Exact n (.int i)
  | text {n : Nat} (s : String) : Exact n (.text s)
  | list {n : Nat} {items : List Json} (each : ∀ v ∈ items, Exact n v) :
      Exact (n + 1) (.list items)
  | object {n : Nat} {fields : List (String × Json)} (each : ∀ f ∈ fields, Exact n f.2) :
      Exact (n + 1) (.object fields)

/-- The text of a value goes on at once, and not with the end of a list. -/
def Opens (s : List Char) : Prop := ∃ c rest, s = c :: rest ∧ isSpace c = false ∧ c ≠ ']'

theorem skipSpace_cons {c : Char} (h : isSpace c = false) (s : List Char) :
    skipSpace (c :: s) = c :: s := by
  simp [skipSpace, h]

theorem Opens.skipSpace_append {s : List Char} (h : Opens s) (rest : List Char) :
    skipSpace (s ++ rest) = s ++ rest := by
  obtain ⟨c, more, rfl, hspace, -⟩ := h
  exact skipSpace_cons hspace (more ++ rest)

/-- A value that the reader finds in its text, with what stands after it left over. -/
structure ReadsBack (n : Nat) (v : Json) : Prop where
  opens : Opens (render v).toList
  value_eq : ∀ (fuel : Nat) {rest : List Char}, (render v).toList.length ≤ fuel → Closes rest →
    value fuel n ((render v).toList ++ rest) = .ok (v, rest)

/-! ## Scalars -/

theorem ne_of_isAsciiDigit {c d : Char} (hc : Text.isAsciiDigit c = true)
    (hd : Text.isAsciiDigit d = false) : c ≠ d := by
  rintro rfl
  exact Bool.false_ne_true (hd.symm.trans hc)

/-- What begins with a digit, with or without a sign, is none of the words. -/
theorem word?_of_isAsciiDigit {c : Char} (hc : Text.isAsciiDigit c = true) (s : List Char) :
    word? (c :: s) = none ∧ word? ('-' :: c :: s) = none := by
  have hn := (ne_of_isAsciiDigit hc (d := 'n') (by decide)).symm
  have ht := (ne_of_isAsciiDigit hc (d := 't') (by decide)).symm
  have hf := (ne_of_isAsciiDigit hc (d := 'f') (by decide)).symm
  have hN := (ne_of_isAsciiDigit hc (d := 'N') (by decide)).symm
  have hI := (ne_of_isAsciiDigit hc (d := 'I') (by decide)).symm
  have hminus := (ne_of_isAsciiDigit hc (d := '-') (by decide)).symm
  constructor <;> simp [word?, words, afterWord?, hn, ht, hf, hN, hI, hminus]

theorem scalar_toDigits (n : Nat) (rest : List Char) :
    scalar (Nat.toDigits 10 n ++ rest) = number false (Nat.toDigits 10 n ++ rest) ∧
      scalar ('-' :: Nat.toDigits 10 n ++ rest) = number true (Nat.toDigits 10 n ++ rest) := by
  obtain ⟨c, more, hdigits, hc⟩ := Text.exists_toDigits_eq_cons n
  obtain ⟨hplain, hsigned⟩ := word?_of_isAsciiDigit hc (more ++ rest)
  have hminus : c ≠ '-' := ne_of_isAsciiDigit hc (by decide)
  rw [hdigits]
  constructor
  · simp [scalar, hplain, hminus]
  · simp [scalar, hsigned]

theorem scalar_toString {i : Int} (hi : Text.isWritable i = true) {rest : List Char}
    (h : Closes rest) : scalar ((toString i).toList ++ rest) = .ok (.int i, rest) := by
  have hwritable : i.natAbs < Text.writeLimit := of_decide_eq_true hi
  rw [Text.toList_toString]
  split
  next hsign =>
    have hi : (i.toNat : Int) = i := Int.toNat_of_nonneg hsign
    rw [(scalar_toDigits _ _).1, number_toDigits false (by omega) h]
    simp [hi]
  next hsign =>
    have hi : ((-i).toNat : Int) = -i := Int.toNat_of_nonneg (by omega)
    rw [(scalar_toDigits _ _).2, number_toDigits true (by omega) h]
    simp [hi]

/-- A value that begins with neither a quote nor a bracket nor a brace is a scalar. -/
theorem value_eq_scalar {c : Char} (hquote : c ≠ '"') (hbracket : c ≠ '[') (hbrace : c ≠ '\x7b')
    (fuel nesting : Nat) (s : List Char) :
    value (fuel + 1) nesting (c :: s) = scalar (c :: s) := by
  simp [value, hquote, hbracket, hbrace]

theorem readsBack_int {n : Nat} {i : Int} (hi : Text.isWritable i = true) :
    ReadsBack n (.int i) := by
  -- the text begins with a digit or with a minus sign
  obtain ⟨c, more, htext, hc⟩ : ∃ c more, (toString i).toList = c :: more ∧
      (Text.isAsciiDigit c = true ∨ c = '-') := by
    rw [Text.toList_toString]
    split
    · obtain ⟨c, more, hdigits, hc⟩ := Text.exists_toDigits_eq_cons i.toNat
      exact ⟨c, more, hdigits, .inl hc⟩
    · exact ⟨'-', _, rfl, .inr rfl⟩
  have hne {d : Char} (hd : Text.isAsciiDigit d = false) (hminus : '-' ≠ d) : c ≠ d := by
    rcases hc with hc | rfl
    · exact ne_of_isAsciiDigit hc hd
    · exact hminus
  constructor
  · refine ⟨c, more, by rw [render, htext], ?_, hne (by decide) (by decide)⟩
    have hspace := hne (d := ' ') (by decide) (by decide)
    have htab := hne (d := '\t') (by decide) (by decide)
    have hline := hne (d := '\n') (by decide) (by decide)
    have hreturn := hne (d := '\r') (by decide) (by decide)
    simp [isSpace, hspace, htab, hline, hreturn]
  · intro fuel rest hfuel hrest
    rw [render, htext, List.length_cons] at hfuel
    obtain ⟨fuel, rfl⟩ := Nat.exists_eq_add_one_of_ne_zero (Nat.ne_zero_of_lt hfuel)
    have hscalar := scalar_toString hi hrest
    rw [htext] at hscalar
    rw [render, htext, List.cons_append, value_eq_scalar (hne (by decide) (by decide))
      (hne (by decide) (by decide)) (hne (by decide) (by decide))]
    exact hscalar

theorem readsBack_word {n : Nat} {v : Json} (c : Char) (word : List Char)
    (htext : (render v).toList = c :: word) (hc : c = 'n' ∨ c = 't' ∨ c = 'f')
    (hword : ∀ rest, word? (c :: word ++ rest) = some (v, rest)) : ReadsBack n v := by
  constructor
  · refine ⟨c, word, htext, ?_⟩
    rcases hc with rfl | rfl | rfl <;> decide
  · intro fuel rest hfuel _
    rw [htext, List.length_cons] at hfuel
    obtain ⟨fuel, rfl⟩ := Nat.exists_eq_add_one_of_ne_zero (Nat.ne_zero_of_lt hfuel)
    have hscalar : scalar (c :: word ++ rest) = .ok (v, rest) := by
      simp only [scalar, hword]
    rw [htext]
    rcases hc with rfl | rfl | rfl <;> exact hscalar

theorem readsBack_null {n : Nat} : ReadsBack n .null :=
  readsBack_word 'n' ['u', 'l', 'l'] (by simp [render]) (by decide) fun _ => rfl

theorem readsBack_bool {n : Nat} (b : Bool) : ReadsBack n (.bool b) := by
  cases b with
  | false =>
      exact readsBack_word 'f' ['a', 'l', 's', 'e'] (by simp [render]) (by decide) fun _ => rfl
  | true => exact readsBack_word 't' ['r', 'u', 'e'] (by simp [render]) (by decide) fun _ => rfl

theorem readsBack_text {n : Nat} (s : String) : ReadsBack n (.text s) := by
  constructor
  · exact ⟨'"', s.toList.flatMap escapeChar ++ ['"'], by rw [render, toList_renderText], by decide,
      by decide⟩
  · intro fuel rest hfuel _
    rw [render] at hfuel ⊢
    obtain ⟨fuel, rfl⟩ : ∃ less, fuel = less + 1 := by
      rw [toList_renderText, List.length_cons] at hfuel
      exact Nat.exists_eq_add_one_of_ne_zero (Nat.ne_zero_of_lt hfuel)
    have hbody := textBody?_renderText s rest fuel hfuel
    rw [toList_renderText, List.cons_append, List.append_assoc, List.singleton_append]
    simp only [value, hbody, ofCodePoints_ofString]

/-! ## Lists -/

theorem toList_renderItems_cons (v w : Json) (more : List Json) :
    (renderItems (v :: w :: more)).toList =
      (render v).toList ++ ',' :: (renderItems (w :: more)).toList := by
  simp [renderItems]

theorem opens_renderItems {n : Nat} {v : Json} (h : ReadsBack n v) (more : List Json) :
    Opens (renderItems (v :: more)).toList := by
  cases more with
  | nil => exact h.opens
  | cons w more =>
      obtain ⟨c, rest, htext, hc⟩ := h.opens
      exact ⟨c, _, by rw [toList_renderItems_cons, htext, List.cons_append], hc⟩

/-- A value in a list is read up to the comma or the bracket that closes it. -/
theorem items_item {n : Nat} {v : Json} (h : ReadsBack n v) (read : List Json) (rest : List Char)
    (fuel : Nat) (hfuel : (render v).toList.length ≤ fuel) :
    items (fuel + 1) n read ((render v).toList ++ ',' :: rest) =
      items fuel n (v :: read) (skipSpace rest) ∧
    items (fuel + 1) n read ((render v).toList ++ ']' :: rest) =
      .ok (read.reverse ++ [v], rest) := by
  have hcomma := h.value_eq fuel hfuel (.comma rest)
  have hbracket := h.value_eq fuel hfuel (.bracket rest)
  rw [items, items, hcomma, hbracket]
  constructor
  · simp only [skipSpace_cons (c := ',') rfl]
  · simp only [skipSpace_cons (c := ']') rfl, List.reverse_cons]

theorem items_renderItems {n : Nat} {v : Json} {more : List Json}
    (each : ∀ w ∈ v :: more, ReadsBack n w) (read : List Json) (rest : List Char) (fuel : Nat)
    (hfuel : (renderItems (v :: more)).toList.length < fuel) :
    items fuel n read ((renderItems (v :: more)).toList ++ ']' :: rest) =
      .ok (read.reverse ++ v :: more, rest) := by
  obtain ⟨fuel, rfl⟩ := Nat.exists_eq_add_one_of_ne_zero (Nat.ne_zero_of_lt hfuel)
  have hv := each v List.mem_cons_self
  induction more generalizing v read fuel with
  | nil =>
      rw [renderItems] at hfuel ⊢
      exact (items_item hv read rest fuel (Nat.le_of_lt_succ hfuel)).2
  | cons w more ih =>
      rw [toList_renderItems_cons] at hfuel ⊢
      rw [List.length_append, List.length_cons] at hfuel
      have hw := each w (by simp)
      obtain ⟨fuel, rfl⟩ := Nat.exists_eq_add_one_of_ne_zero (n := fuel) (by omega)
      have hrest := ih (fun u hu => each u (List.mem_cons_of_mem v hu)) (v :: read) fuel
        (by omega) hw
      rw [List.append_assoc, List.cons_append, (items_item hv read _ (fuel + 1) (by omega)).1,
        (opens_renderItems hw more).skipSpace_append, hrest, List.reverse_cons,
        List.append_assoc, List.singleton_append]

theorem readsBack_list {n : Nat} {vs : List Json} (each : ∀ v ∈ vs, ReadsBack n v) :
    ReadsBack (n + 1) (.list vs) := by
  have htext : (render (.list vs)).toList = '[' :: ((renderItems vs).toList ++ [']']) := by
    simp [render]
  constructor
  · exact ⟨'[', _, htext, by decide, by decide⟩
  · intro fuel rest hfuel _
    rw [htext] at hfuel ⊢
    obtain ⟨fuel, rfl⟩ := Nat.exists_eq_add_one_of_ne_zero (Nat.ne_zero_of_lt hfuel)
    rw [List.cons_append, List.append_assoc, List.singleton_append, value]
    cases vs with
    | nil => simp [renderItems, skipSpace, isSpace]
    | cons v more =>
        have hopens := opens_renderItems (each v List.mem_cons_self) more
        have hitems := items_renderItems each [] rest fuel (by
          rw [List.length_cons, List.length_append, List.length_singleton] at hfuel
          omega)
        simp only [hopens.skipSpace_append, Nat.add_one_ne_zero, if_false, Nat.add_sub_cancel]
        split
        next heq =>
          obtain ⟨c, s, hs, -, hbracket⟩ := hopens
          rw [hs] at heq
          exact absurd (List.cons.inj heq).1 hbracket
        next => simp only [hitems, List.reverse_nil, List.nil_append]

/-! ## Objects -/

theorem toList_renderFields_single (name : String) (v : Json) :
    (renderFields [(name, v)]).toList = (renderText name).toList ++ ':' :: (render v).toList := by
  simp [renderFields]

theorem toList_renderFields_cons (name : String) (v : Json) (f : String × Json)
    (more : List (String × Json)) :
    (renderFields ((name, v) :: f :: more)).toList =
      (renderText name).toList ++
        ':' :: ((render v).toList ++ ',' :: (renderFields (f :: more)).toList) := by
  simp [renderFields]

theorem opens_renderFields (f : String × Json) (more : List (String × Json)) :
    ∃ s, (renderFields (f :: more)).toList = '"' :: s := by
  cases more with
  | nil => exact ⟨_, by rw [toList_renderFields_single, toList_renderText, List.cons_append]⟩
  | cons g more =>
      exact ⟨_, by rw [toList_renderFields_cons, toList_renderText, List.cons_append]⟩

theorem member_ofString (name : String) (v : Json) :
    member (Text.CodePoints.ofString name) v = (name, v) := by
  rw [member, Text.CodePoints.string?_ofString]

/-- A field is read up to the comma or the brace that closes its value. -/
theorem members_field {n : Nat} {v : Json} (h : ReadsBack n v) (name : String)
    (read : List (String × Json)) (rest : List Char) (fuel : Nat)
    (hfuel : (renderText name).toList.length + (render v).toList.length < fuel + 1) :
    members (fuel + 1) n read
        ((renderText name).toList ++ ':' :: ((render v).toList ++ ',' :: rest)) =
      members fuel n ((name, v) :: read) (skipSpace rest) ∧
    members (fuel + 1) n read
        ((renderText name).toList ++ ':' :: ((render v).toList ++ '\x7d' :: rest)) =
      .ok (read.reverse ++ [(name, v)], rest) := by
  have hname (s : List Char) := textBody?_renderText name (':' :: s) fuel (by omega)
  have hcomma := h.value_eq fuel (by omega) (.comma rest)
  have hbrace := h.value_eq fuel (by omega) (.brace rest)
  rw [toList_renderText, List.cons_append, List.cons_append, List.append_assoc,
    List.singleton_append, List.append_assoc, List.singleton_append, members, members]
  constructor
  · simp only [hname, skipSpace_cons (c := ':') rfl, skipSpace_cons (c := ',') rfl,
      h.opens.skipSpace_append, hcomma, member_ofString]
  · simp only [hname, skipSpace_cons (c := ':') rfl, skipSpace_cons (c := '\x7d') rfl,
      h.opens.skipSpace_append, hbrace, member_ofString, List.reverse_cons]

theorem members_renderFields {n : Nat} {f : String × Json} {more : List (String × Json)}
    (each : ∀ g ∈ f :: more, ReadsBack n g.2) (read : List (String × Json)) (rest : List Char)
    (fuel : Nat) (hfuel : (renderFields (f :: more)).toList.length < fuel) :
    members fuel n read ((renderFields (f :: more)).toList ++ '\x7d' :: rest) =
      .ok (read.reverse ++ f :: more, rest) := by
  obtain ⟨fuel, rfl⟩ := Nat.exists_eq_add_one_of_ne_zero (Nat.ne_zero_of_lt hfuel)
  have hf := each f List.mem_cons_self
  induction more generalizing f read fuel with
  | nil =>
      obtain ⟨name, v⟩ := f
      rw [toList_renderFields_single] at hfuel ⊢
      rw [List.length_append, List.length_cons] at hfuel
      rw [List.append_assoc, List.cons_append,
        (members_field (v := v) hf name read rest fuel (by omega)).2]
  | cons g more ih =>
      obtain ⟨name, v⟩ := f
      rw [toList_renderFields_cons] at hfuel ⊢
      rw [List.length_append, List.length_cons, List.length_append, List.length_cons] at hfuel
      obtain ⟨s, hopens⟩ := opens_renderFields g more
      obtain ⟨fuel, rfl⟩ := Nat.exists_eq_add_one_of_ne_zero (n := fuel) (by omega)
      have hrest := ih (fun u hu => each u (List.mem_cons_of_mem _ hu)) ((name, v) :: read) fuel
        (by omega) (each g (by simp))
      rw [List.append_assoc, List.cons_append, List.append_assoc, List.cons_append,
        (members_field (v := v) hf name read _ (fuel + 1) (by omega)).1]
      rw [hopens, List.cons_append] at hrest
      rw [hopens, List.cons_append, skipSpace_cons rfl, hrest, List.reverse_cons,
        List.append_assoc, List.singleton_append]

theorem readsBack_object {n : Nat} {fields : List (String × Json)}
    (each : ∀ f ∈ fields, ReadsBack n f.2) : ReadsBack (n + 1) (.object fields) := by
  have htext : (render (.object fields)).toList =
      '\x7b' :: ((renderFields fields).toList ++ ['\x7d']) := by
    simp [render]
  constructor
  · exact ⟨'\x7b', _, htext, by decide, by decide⟩
  · intro fuel rest hfuel _
    rw [htext] at hfuel ⊢
    obtain ⟨fuel, rfl⟩ := Nat.exists_eq_add_one_of_ne_zero (Nat.ne_zero_of_lt hfuel)
    rw [List.cons_append, List.append_assoc, List.singleton_append, value]
    cases fields with
    | nil => simp [renderFields, skipSpace, isSpace]
    | cons f more =>
        have hmembers := members_renderFields each [] rest fuel (by
          rw [List.length_cons, List.length_append, List.length_singleton] at hfuel
          omega)
        obtain ⟨s, hopens⟩ := opens_renderFields f more
        rw [hopens, List.cons_append] at hmembers
        simp [hopens, skipSpace_cons (c := '"') rfl, hmembers]

/-! ## Values -/

theorem Exact.readsBack {n : Nat} {v : Json} (h : Exact n v) : ReadsBack n v := by
  induction h with
  | null => exact readsBack_null
  | bool b => exact readsBack_bool b
  | int writable => exact readsBack_int writable
  | text s => exact readsBack_text s
  | list _ ih => exact readsBack_list ih
  | object _ ih => exact readsBack_object ih

theorem Exact.mono {m n : Nat} {v : Json} (h : Exact m v) (hle : m ≤ n) : Exact n v := by
  induction h generalizing n with
  | null => exact .null
  | bool b => exact .bool b
  | int writable => exact .int writable
  | text s => exact .text s
  | list _ ih =>
      obtain ⟨n, rfl⟩ := Nat.exists_eq_add_one_of_ne_zero (Nat.ne_zero_of_lt hle)
      exact .list fun v hv => ih v hv (Nat.le_of_succ_le_succ hle)
  | object _ ih =>
      obtain ⟨n, rfl⟩ := Nat.exists_eq_add_one_of_ne_zero (Nat.ne_zero_of_lt hle)
      exact .object fun f hf => ih f hf (Nat.le_of_succ_le_succ hle)

theorem length_render_le_of_mem {v : Json} {vs : List Json} (h : v ∈ vs) :
    (render v).toList.length ≤ (renderItems vs).toList.length := by
  induction vs with
  | nil => cases h
  | cons w more ih =>
      cases more with
      | nil => simp [List.mem_singleton.1 h, renderItems]
      | cons u more =>
          rw [toList_renderItems_cons, List.length_append, List.length_cons]
          rcases List.mem_cons.1 h with rfl | hmem
          · omega
          · have := ih hmem
            omega

theorem length_render_le_of_mem_fields {f : String × Json} {fields : List (String × Json)}
    (h : f ∈ fields) : (render f.2).toList.length ≤ (renderFields fields).toList.length := by
  induction fields with
  | nil => cases h
  | cons g more ih =>
      obtain ⟨name, v⟩ := g
      cases more with
      | nil =>
          obtain rfl := List.mem_singleton.1 h
          rw [toList_renderFields_single, List.length_append, List.length_cons]
          dsimp only
          omega
      | cons e more =>
          rw [toList_renderFields_cons, List.length_append, List.length_cons, List.length_append,
            List.length_cons]
          rcases List.mem_cons.1 h with rfl | hmem
          · dsimp only
            omega
          · have := ih hmem
            omega

/-- A value is nested no deeper than its text is long. -/
theorem Exact.of_length {n : Nat} {v : Json} (h : Exact n v) :
    Exact (render v).toList.length v := by
  induction h with
  | null => exact .null
  | bool b => exact .bool b
  | int writable => exact .int writable
  | text s => exact .text s
  | @list _ vs _ ih =>
      have hlength : (render (.list vs)).toList.length =
          (renderItems vs).toList.length + 1 + 1 := by
        simp [render]
      rw [hlength]
      exact .list fun v hv => (ih v hv).mono (Nat.le_succ_of_le (length_render_le_of_mem hv))
  | @object _ fields _ ih =>
      have hlength : (render (.object fields)).toList.length =
          (renderFields fields).toList.length + 1 + 1 := by
        simp [render]
      rw [hlength]
      exact .object fun f hf =>
        (ih f hf).mono (Nat.le_succ_of_le (length_render_le_of_mem_fields hf))

theorem parseWithin_render {n : Nat} {v : Json} (h : Exact n v) :
    parseWithin n (render v) = .ok v := by
  have hback := h.readsBack
  have hspace := hback.opens.skipSpace_append []
  have hvalue := hback.value_eq (2 * (render v).toList.length + 2) (by omega) .nothing
  rw [List.append_nil] at hspace hvalue
  simp only [parseWithin, hspace, hvalue]
  rfl

theorem parse_render {n : Nat} {v : Json} (h : Exact n v) : parse (render v) = .ok v :=
  parseWithin_render (String.length_toList ▸ h.of_length)

end MarketMaker.Json
