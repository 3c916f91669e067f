import MarketMaker.Http.Endpoint

/-! # Which endpoint a path leads to

The two paths below `/pools/` overlap, since identifiers and denoms may both hold slashes: what
follows `/pools/` is a path of decimals as soon as `/decimals/` stands anywhere in it, and it is
split at the last place. So a path leads to a pool, or to an asset of it, only where its own parts
bring no such place. -/

namespace MarketMaker.Http.Endpoint

/-! ## Splitting at the last place -/

theorem afterStart?_eq_some_iff {start s after : List Char} :
    afterStart? start s = some after ↔ s = start ++ after := by
  unfold afterStart?
  constructor
  · intro h
    split at h
    next hstart =>
      obtain ⟨rest, rfl⟩ := List.isPrefixOf_iff_prefix.1 hstart
      rw [List.drop_left, Option.some.injEq] at h
      rw [h]
    next => cases h
  · rintro rfl
    rw [if_pos (List.isPrefixOf_iff_prefix.2 (List.prefix_append _ _)), List.drop_left]

section

variable {mark s before after : List Char}

/-- A later place comes first, and only then the start of the text. -/
theorem splitAtLast?_cons_eq_some_iff {c : Char} :
    splitAtLast? mark (c :: s) = some (before, after) ↔
      (∃ b, before = c :: b ∧ splitAtLast? mark s = some (b, after)) ∨
        before = [] ∧ splitAtLast? mark s = none ∧ c :: s = mark ++ after := by
  rw [splitAtLast?]
  cases splitAtLast? mark s with
  | some parts =>
      obtain ⟨b, a⟩ := parts
      simp only [Option.some.injEq, Prod.mk.injEq, reduceCtorEq, false_and, and_false, or_false]
      constructor
      · rintro ⟨rfl, rfl⟩
        exact ⟨b, rfl, rfl, rfl⟩
      · rintro ⟨_, rfl, rfl, rfl⟩
        exact ⟨rfl, rfl⟩
  | none =>
      simp only [Option.map_eq_some_iff, afterStart?_eq_some_iff, Prod.mk.injEq, reduceCtorEq,
        and_false, exists_false, true_and, false_or]
      constructor
      · rintro ⟨_, heq, rfl, rfl⟩
        exact ⟨rfl, heq⟩
      · rintro ⟨rfl, heq⟩
        exact ⟨_, heq, rfl, rfl⟩

theorem splitAtLast?_eq_none_iff (hmark : mark ≠ []) :
    splitAtLast? mark s = none ↔ ¬mark <:+: s := by
  induction s with
  | nil => simp [splitAtLast?, hmark]
  | cons c rest ih =>
      rw [splitAtLast?, List.infix_cons_iff, not_or, ← ih]
      cases splitAtLast? mark rest with
      | some parts => simp
      | none => simp [afterStart?]

/-- A text is split at the place after which the mark does not begin again. -/
theorem splitAtLast?_eq_some_iff (hmark : mark ≠ []) :
    splitAtLast? mark s = some (before, after) ↔
      s = before ++ (mark ++ after) ∧ ¬mark <:+: (mark ++ after).tail := by
  induction s generalizing before with
  | nil => simp [splitAtLast?, hmark]
  | cons c rest ih =>
      rw [splitAtLast?_cons_eq_some_iff]
      cases before with
      | nil =>
          simp only [reduceCtorEq, false_and, exists_false, false_or, true_and, List.nil_append]
          rw [splitAtLast?_eq_none_iff hmark, and_comm]
          refine and_congr_right fun heq => ?_
          rw [← heq, List.tail_cons]
      | cons d b =>
          simp only [List.cons.injEq, reduceCtorEq, false_and, or_false, List.cons_append]
          rw [and_assoc, ← ih]
          constructor
          · rintro ⟨_, ⟨rfl, rfl⟩, h⟩
            exact ⟨rfl, h⟩
          · rintro ⟨rfl, h⟩
            exact ⟨_, ⟨rfl, rfl⟩, h⟩

/-- A mark is not found in front of its first character. -/
theorem infix_append_iff {c : Char} (hc : c ∉ before) :
    c :: mark <:+: before ++ s ↔ c :: mark <:+: s := by
  induction before with
  | nil => rfl
  | cons d rest ih =>
      rw [List.mem_cons, not_or] at hc
      rw [List.cons_append, List.infix_cons_iff, List.cons_prefix_cons, ih hc.2]
      simp [hc.1]

end

/-! ## Paths below the pools -/

section

variable {s : List Char} {identifier denom : String}

/-- The path of decimals needs its mark, so that it leaves the paths without one to the pools. -/
theorem ofPoolPath?_eq_pool_iff :
    ofPoolPath? s = some (.pool identifier) ↔
      s = identifier.toList ∧ '\n' ∉ s ∧ ¬"/decimals/".toList <:+: s := by
  rw [← splitAtLast?_eq_none_iff (by decide), ofPoolPath?]
  cases splitAtLast? "/decimals/".toList s with
  | some parts => simp
  | none =>
      simp [← String.toList_inj, and_comm]

/-- The denom has to follow the last place. Only its own start can bring a later one: there is no
other slash between the two of the mark. -/
theorem ofPoolPath?_eq_decimals_iff :
    ofPoolPath? s = some (.decimals identifier denom) ↔
      s = identifier.toList ++ ("/decimals/".toList ++ denom.toList) ∧ '\n' ∉ s ∧
        ¬"/decimals/".toList <:+: '/' :: denom.toList := by
  have hsplit : ofPoolPath? s = some (.decimals identifier denom) ↔
      '\n' ∉ s ∧ splitAtLast? "/decimals/".toList s = some (identifier.toList, denom.toList) := by
    rw [ofPoolPath?]
    cases splitAtLast? "/decimals/".toList s with
    | some parts => simp [← String.toList_inj, Prod.ext_iff]
    | none => simp
  have htail : ("/decimals/".toList ++ denom.toList).tail =
      "decimals".toList ++ '/' :: denom.toList := rfl
  rw [hsplit, splitAtLast?_eq_some_iff (by decide), htail, and_left_comm]
  exact and_congr_right fun _ => and_congr_right fun _ => not_congr (infix_append_iff (by decide))

theorem dropNewline_eq_self (h : '\n' ∉ s) : dropNewline s = s :=
  if_neg fun hlast => h (List.mem_of_getLast? hlast)

theorem dropNewline_append {start : List Char} (h : '\n' ∉ start) :
    dropNewline (start ++ s) = start ++ dropNewline s := by
  by_cases hs : s = []
  · rw [hs, List.append_nil, dropNewline_eq_self h]
    exact (List.append_nil start).symm
  · have hlast : (start ++ s).getLast? = s.getLast? := by
      rw [List.getLast?_append, List.getLast?_eq_some_getLast hs, Option.some_or]
    rw [dropNewline, dropNewline, hlast, List.dropLast_append_of_ne_nil hs]
    split
    · rfl
    · rfl

/-- No other path begins as those of pools do. -/
theorem ofPath?_pools (s : List Char) :
    ofPath? (String.ofList ("/pools/".toList ++ s)) = ofPoolPath? (dropNewline s) := by
  have hother : ∀ e ∈ fixedPaths, e.1.toList.take 7 ≠ "/pools/".toList := by decide
  have hfixed :
      (fixedPaths.find? fun e => e.1.toList = "/pools/".toList ++ dropNewline s) = none := by
    rw [List.find?_eq_none]
    intro e he heq
    apply hother e he
    rw [of_decide_eq_true heq]
    rfl
  rw [ofPath?, String.toList_ofList, dropNewline_append (by decide), hfixed]
  simp only [afterStart?_eq_some_iff.2 rfl, Option.bind_some]

/-- The path of an identifier leads to its pool unless it reads as a path of decimals. -/
theorem ofPath?_pool_iff (h : '\n' ∉ identifier.toList) {other : String} :
    ofPath? ("/pools/" ++ identifier) = some (.pool other) ↔
      other = identifier ∧ ¬"/decimals/".toList <:+: identifier.toList := by
  have hpath : "/pools/" ++ identifier = String.ofList ("/pools/".toList ++ identifier.toList) := by
    simp only [← String.toList_inj, String.toList_append, String.toList_ofList]
  rw [hpath, ofPath?_pools, dropNewline_eq_self h, ofPoolPath?_eq_pool_iff, String.toList_inj,
    eq_comm]
  simp [h]

/-- The path of an asset leads to the asset unless the denom, or its start, reads as another path
of decimals. -/
theorem ofPath?_decimals_iff (h : '\n' ∉ identifier.toList) :
    ofPath? ("/pools/" ++ identifier ++ "/decimals/" ++ denom) =
        some (.decimals identifier denom) ↔
      '\n' ∉ denom.toList ∧ ¬"/decimals/".toList <:+: '/' :: denom.toList := by
  have hpath : "/pools/" ++ identifier ++ "/decimals/" ++ denom = String.ofList ("/pools/".toList ++
      (identifier.toList ++ ("/decimals/".toList ++ denom.toList))) := by
    simp only [← String.toList_inj, String.toList_append, String.toList_ofList, List.append_assoc]
  have hmark : '\n' ∉ "/decimals/".toList := by decide
  rw [hpath, ofPath?_pools, ofPoolPath?_eq_decimals_iff, dropNewline_append h,
    dropNewline_append hmark, List.append_cancel_left_eq, List.append_cancel_left_eq, ← and_assoc]
  refine and_congr_left fun _ => ⟨fun ⟨hsame, hall⟩ hmem => ?_, fun hdenom => ?_⟩
  · rw [hsame] at hall
    exact hall (List.mem_append_right _ (List.mem_append_right _ hmem))
  · rw [dropNewline_eq_self hdenom]
    simp [h, hdenom]

end

end MarketMaker.Http.Endpoint
