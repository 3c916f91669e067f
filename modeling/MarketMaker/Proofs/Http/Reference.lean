import Mathlib.Data.List.TakeWhile
import MarketMaker.Http.Target

/-! # Every path has a reference

A path may hold any character, and what is special in a reference has to be escaped in it. Escapes
are undone byte by byte, and the bytes read as UTF-8, so that three things are shown in turn: the
bytes of a text stand for the text, escapes stand for the bytes, and a reference of escapes has no
part but its path. -/

namespace MarketMaker

namespace Text

/-! ## Bytes of characters -/

theorem decodeFrom_first {b : Nat} {s : Sequence} (h : sequence? b = some s) (hb : 0x80 ≤ b)
    (rest : List Nat) : decodeFrom none (b :: rest) = decodeFrom (some s) rest := by
  simp [decodeFrom, firstByte, h, Nat.not_lt.2 hb]

theorem decodeFrom_next {s : Sequence} {b : Nat} (hmissing : 1 < s.missing)
    (hb : s.low ≤ b ∧ b ≤ s.high) (rest : List Nat) :
    decodeFrom (some s) (b :: rest) =
      decodeFrom (some ⟨s.missing - 1, 0x80, 0xBF, s.bits * 64 + (b - 0x80)⟩) rest := by
  simp [decodeFrom, nextByte, hb, Nat.not_le.2 hmissing]

theorem decodeFrom_last {s : Sequence} {b : Nat} (hmissing : s.missing ≤ 1)
    (hb : s.low ≤ b ∧ b ≤ s.high) (rest : List Nat) :
    decodeFrom (some s) (b :: rest) =
      Char.ofNat (s.bits * 64 + (b - 0x80)) :: decodeFrom none rest := by
  simp [decodeFrom, nextByte, hb, hmissing]

/-- The second of three bytes is bounded where the character would be too small, or a surrogate. -/
theorem exists_sequence_three {n : Nat} (hlow : 0x800 ≤ n) (hhigh : n ≤ 0xFFFF)
    (hvalid : n < 0xD800 ∨ 0xDFFF < n) :
    ∃ low high, sequence? (n / 4096 % 16 + 224) = some ⟨2, low, high, n / 4096⟩ ∧
      low ≤ n / 64 % 64 + 128 ∧ n / 64 % 64 + 128 ≤ high := by
  have hfirst : n / 4096 % 16 = n / 4096 := Nat.mod_eq_of_lt (by omega)
  rw [hfirst, sequence?, if_neg (by omega)]
  by_cases hzero : n / 4096 = 0
  · exact ⟨0xA0, 0xBF, by simp [hzero], by omega, by omega⟩
  · rw [if_neg (by omega)]
    by_cases hsurrogate : n / 4096 = 13
    · exact ⟨0x80, 0x9F, by simp [hsurrogate], by omega, by omega⟩
    · rw [if_neg (by omega), if_pos (by omega)]
      exact ⟨0x80, 0xBF, by simp, by omega, by omega⟩

/-- The second of four bytes is bounded where the character would be too small or too large. -/
theorem exists_sequence_four {n : Nat} (hlow : 0xFFFF < n) (hhigh : n < 0x110000) :
    ∃ low high, sequence? (n / 262144 % 8 + 240) = some ⟨3, low, high, n / 262144⟩ ∧
      low ≤ n / 4096 % 64 + 128 ∧ n / 4096 % 64 + 128 ≤ high := by
  have hfirst : n / 262144 % 8 = n / 262144 := Nat.mod_eq_of_lt (by omega)
  rw [hfirst, sequence?, if_neg (by omega), if_neg (by omega), if_neg (by omega), if_neg (by omega)]
  by_cases hzero : n / 262144 = 0
  · exact ⟨0x90, 0xBF, by simp [hzero], by omega, by omega⟩
  · rw [if_neg (by omega)]
    by_cases hlast : n / 262144 = 4
    · exact ⟨0x80, 0x8F, by simp [hlast], by omega, by omega⟩
    · rw [if_pos (by omega)]
      exact ⟨0x80, 0xBF, by simp, by omega, by omega⟩

theorem utf8Bytes_of_le {c : Char} (h : c.toNat ≤ 0x7F) : utf8Bytes c = [c.toNat] := by
  have hval : c.val.toNat ≤ 0x7F := h
  have hbyte : (UInt8.ofNat c.val.toNat).toNat = c.val.toNat := Nat.mod_eq_of_lt (by omega)
  simp only [utf8Bytes, String.utf8EncodeChar, hval, ite_true, List.map_cons, List.map_nil, hbyte]
  rfl

/-- The bytes of a character stand for the character, whatever follows them. -/
theorem decodeFrom_utf8Bytes (c : Char) (rest : List Nat) :
    decodeFrom none (utf8Bytes c ++ rest) = c :: decodeFrom none rest := by
  -- One case for each number of bytes. Six bits come from every byte after the first, and the
  -- first one has the rest.
  by_cases hone : c.toNat ≤ 0x7F
  · have hlt : c.toNat < 0x80 := by omega
    simp [utf8Bytes_of_le hone, hlt, decodeFrom, firstByte, Char.ofNat_toNat]
  have hchar : Char.ofNat c.val.toNat = c := Char.ofNat_toNat c
  have hvalid : c.val.toNat < 0xD800 ∨ 0xDFFF < c.val.toNat ∧ c.val.toNat < 0x110000 := c.valid
  have hbyte {b : Nat} (hb : b < 256) : (UInt8.ofNat b).toNat = b := Nat.mod_eq_of_lt hb
  have hone : ¬c.val.toNat ≤ 0x7F := hone
  generalize hn : c.val.toNat = n at hchar hvalid hone
  rw [utf8Bytes, String.utf8EncodeChar]
  simp only [hn]
  by_cases htwo : n ≤ 0x7FF
  · have hfirst : sequence? (n / 64 % 32 + 192) = some ⟨1, 0x80, 0xBF, n / 64⟩ := by
      rw [sequence?, if_pos (by omega), Option.some.injEq, Sequence.mk.injEq]
      omega
    have hbits : n / 64 * 64 + (n % 64 + 128 - 0x80) = n := by omega
    simp only [hone, htwo, ite_true, ite_false, List.map_cons, List.map_nil, List.cons_append,
      List.nil_append]
    rw [hbyte (by omega), hbyte (by omega), decodeFrom_first hfirst (by omega),
      decodeFrom_last (Nat.le_refl 1) (by dsimp only; omega), hbits, hchar]
  by_cases hthree : n ≤ 0xFFFF
  · obtain ⟨low, high, hfirst, hsecond⟩ := exists_sequence_three (by omega) hthree (by omega)
    have hbits : (n / 4096 * 64 + (n / 64 % 64 + 128 - 0x80)) * 64 + (n % 64 + 128 - 0x80) = n := by
      omega
    simp only [hone, htwo, hthree, ite_true, ite_false, List.map_cons, List.map_nil,
      List.cons_append, List.nil_append]
    rw [hbyte (by omega), hbyte (by omega), hbyte (by omega), decodeFrom_first hfirst (by omega),
      decodeFrom_next (Nat.lt_succ_self 1) hsecond,
      decodeFrom_last (Nat.le_refl 1) (by dsimp only; omega), hbits, hchar]
  · obtain ⟨low, high, hfirst, hsecond⟩ := exists_sequence_four (n := n) (by omega) (by omega)
    have hbits : ((n / 262144 * 64 + (n / 4096 % 64 + 128 - 0x80)) * 64 +
        (n / 64 % 64 + 128 - 0x80)) * 64 + (n % 64 + 128 - 0x80) = n := by
      omega
    simp only [hone, htwo, hthree, ite_false, List.map_cons, List.map_nil, List.cons_append,
      List.nil_append]
    rw [hbyte (by omega), hbyte (by omega), hbyte (by omega), hbyte (by omega),
      decodeFrom_first hfirst (by omega), decodeFrom_next (show 1 < 3 by decide) hsecond,
      decodeFrom_next (Nat.lt_succ_self 1) (by dsimp only; omega),
      decodeFrom_last (Nat.le_refl 1) (by dsimp only; omega), hbits, hchar]

theorem decodeBytes_utf8Bytes (s : List Char) : decodeBytes (s.flatMap utf8Bytes) = s := by
  induction s with
  | nil => rfl
  | cons c rest ih =>
      rw [List.flatMap_cons, decodeBytes, decodeFrom_utf8Bytes]
      exact congrArg (c :: ·) ih

end Text

namespace Http

/-! ## Escapes -/

/-- Escapes whatever is no letter or digit of ASCII. -/
def escapeChar (c : Char) : List Char :=
  if c.isAlphanum then [c] else (Text.utf8Bytes c).flatMap escapeByte

def escapeAll (s : List Char) : List Char := s.flatMap escapeChar

/-- What escapes are made of. -/
def isEscapeChar (c : Char) : Bool := c = '%' || c.isAlphanum

theorem toUpper_hexDigit {n : Nat} (h : n < 16) :
    Text.hexValue? (Text.hexDigit n).toUpper = some n ∧
      isEscapeChar (Text.hexDigit n).toUpper = true := by
  revert n
  decide

theorem escapeByte_eq (b : Nat) :
    escapeByte b =
      ['%', (Text.hexDigit (b / 16 % 16)).toUpper, (Text.hexDigit (b % 16)).toUpper] := rfl

theorem isEscapeChar_of_mem_escapeByte {b : Nat} {c : Char} (h : c ∈ escapeByte b) :
    isEscapeChar c = true := by
  simp only [escapeByte_eq, List.mem_cons, List.not_mem_nil, or_false] at h
  rcases h with rfl | rfl | rfl
  · rfl
  · exact (toUpper_hexDigit (Nat.mod_lt _ (by decide))).2
  · exact (toUpper_hexDigit (Nat.mod_lt _ (by decide))).2

theorem isEscapeChar_of_mem {s : List Char} {c : Char} (h : c ∈ escapeAll s) :
    isEscapeChar c = true := by
  obtain ⟨x, -, hc⟩ := List.mem_flatMap.1 h
  unfold escapeChar at hc
  split at hc
  next hx =>
    rw [List.mem_singleton.1 hc, isEscapeChar, hx, Bool.or_true]
  next =>
    obtain ⟨b, -, hc⟩ := List.mem_flatMap.1 hc
    exact isEscapeChar_of_mem_escapeByte hc

theorem toNat_of_isEscapeChar {c : Char} (h : isEscapeChar c = true) :
    c.toNat = 37 ∨ (48 ≤ c.toNat ∧ c.toNat ≤ 57) ∨ (65 ≤ c.toNat ∧ c.toNat ≤ 90) ∨
      (97 ≤ c.toNat ∧ c.toNat ≤ 122) := by
  -- `change` opens the classes, as no lemma states them.
  rw [isEscapeChar, Bool.or_eq_true, decide_eq_true_eq] at h
  rcases h with rfl | hclass
  · exact .inl rfl
  · change (decide (65 ≤ c.val ∧ c.val ≤ 90) || (97 ≤ c.val && c.val ≤ 122) ||
      (48 ≤ c.val && c.val ≤ 57)) = true at hclass
    simp only [Bool.or_eq_true, Bool.and_eq_true, decide_eq_true_eq,
      UInt32.le_iff_toNat_le] at hclass
    rcases hclass with (hupper | hlower) | hdigit
    · exact .inr (.inr (.inl hupper))
    · exact .inr (.inr (.inr hlower))
    · exact .inr (.inl hdigit)

theorem unescapeFrom_escapeByte {b : Nat} (hb : b < 256) (bytes : List Nat) (rest : List Char) :
    unescapeFrom bytes 0 (escapeByte b ++ rest) = unescapeFrom (b :: bytes) 0 rest := by
  have hhigh := (toUpper_hexDigit (n := b / 16 % 16) (Nat.mod_lt _ (by decide))).1
  have hlow := (toUpper_hexDigit (n := b % 16) (Nat.mod_lt _ (by decide))).1
  have hvalue : 16 * (b / 16 % 16) + b % 16 = b := by omega
  simp [escapeByte_eq, unescapeFrom, escapedByte?, hhigh, hlow, hvalue]

theorem unescapeFrom_flatMap {new : List Nat} (hnew : ∀ b ∈ new, b < 256) (bytes : List Nat)
    (rest : List Char) :
    unescapeFrom bytes 0 (new.flatMap escapeByte ++ rest) =
      unescapeFrom (new.reverse ++ bytes) 0 rest := by
  induction new generalizing bytes with
  | nil => rfl
  | cons b tail ih =>
      rw [List.forall_mem_cons] at hnew
      rw [List.flatMap_cons, List.append_assoc, unescapeFrom_escapeByte hnew.1, ih hnew.2]
      simp

theorem utf8Bytes_lt {c : Char} {b : Nat} (h : b ∈ Text.utf8Bytes c) : b < 256 := by
  obtain ⟨byte, -, rfl⟩ := List.mem_map.1 h
  exact byte.toNat_lt

theorem unescapeFrom_escapeChar (c : Char) (bytes : List Nat) (rest : List Char) :
    unescapeFrom bytes 0 (escapeChar c ++ rest) =
      unescapeFrom ((Text.utf8Bytes c).reverse ++ bytes) 0 rest := by
  unfold escapeChar
  split
  next hc =>
    have hplain := toNat_of_isEscapeChar (c := c) (by rw [isEscapeChar, hc, Bool.or_true])
    have hne : c ≠ '%' := by
      rintro rfl
      revert hc
      decide
    have hlt : c.toNat < 0x80 := by omega
    rw [Text.utf8Bytes_of_le (Nat.le_of_lt_succ hlt)]
    simp [unescapeFrom, hne, hlt]
  next => exact unescapeFrom_flatMap (fun b => utf8Bytes_lt) bytes rest

theorem unescapeFrom_escapeAll (s : List Char) (bytes : List Nat) :
    unescapeFrom bytes 0 (escapeAll s) =
      Text.decodeBytes (bytes.reverse ++ s.flatMap Text.utf8Bytes) := by
  induction s generalizing bytes with
  | nil => simp [escapeAll, unescapeFrom]
  | cons c rest ih =>
      rw [escapeAll, List.flatMap_cons, unescapeFrom_escapeChar, ← escapeAll, ih]
      simp

/-- Escapes are undone exactly; a slash in front of them stays. -/
theorem unescape_slash_escapeAll (s : List Char) : unescape ('/' :: escapeAll s) = '/' :: s := by
  have hbytes : Text.utf8Bytes '/' = [47] := by decide
  have hslash : unescape ('/' :: escapeAll s) = unescapeFrom [47] 0 (escapeAll s) := rfl
  rw [hslash, unescapeFrom_escapeAll, List.reverse_singleton, ← hbytes, ← List.flatMap_cons]
  exact Text.decodeBytes_utf8Bytes _

/-! ## References -/

theorem cutAt_eq_self {stop : Char → Bool} {s : List Char} (h : ∀ c ∈ s, stop c = false) :
    cutAt stop s = (s, none) := by
  have hall : (s.dropWhile fun c => !stop c) = [] := by
    rw [List.dropWhile_eq_nil_iff]
    intro c hc
    rw [h c hc]
    rfl
  rw [cutAt, hall]

theorem splitAt_eq_self {separator : Char} {s : List Char} (h : separator ∉ s) :
    splitAt separator s = [s] := by
  induction s with
  | nil => rfl
  | cons c rest ih =>
      rw [List.mem_cons, not_or] at h
      rw [splitAt, ih h.2]
      exact if_neg fun heq => h.1 heq.symm

theorem escape_eq_self {s : List Char} (h : ∀ c ∈ s, c.toNat < 0x80) : escape s = s := by
  induction s with
  | nil => rfl
  | cons c rest ih =>
      rw [List.forall_mem_cons] at h
      rw [escape, List.flatMap_cons, if_pos h.1, ← escape, ih h.2]
      rfl

namespace Target

/-- The reference to a path from the root, with escapes for the client inside escapes for the
server. -/
def reference (path : String) : String :=
  String.ofList ('/' :: escapeAll (escapeAll (path.toList.drop 1)))

section

variable {s : List Char} (h : ∀ c ∈ s, isEscapeChar c = true)

include h

theorem not_mem_of_isEscapeChar {c : Char} (hc : isEscapeChar c = false) : c ∉ s := by
  intro hmem
  rw [h c hmem] at hc
  cases hc

theorem dropAuthority_eq_self : dropAuthority ('/' :: s) = (false, '/' :: s) := by
  cases s with
  | nil => rfl
  | cons c rest =>
      have hne : c ≠ '/' := by
        rintro rfl
        exact not_mem_of_isEscapeChar h (by decide) List.mem_cons_self
      unfold dropAuthority
      split
      next heq => simp [hne] at heq
      next => rfl

theorem cutAt_eq_self_of_isEscapeChar {c : Char} (hslash : '/' ≠ c)
    (hc : isEscapeChar c = false) : cutAt (· = c) ('/' :: s) = ('/' :: s, none) := by
  apply cutAt_eq_self
  intro x hx
  rcases List.mem_cons.1 hx with rfl | hx
  · simp [hslash]
  · have hne : x ≠ c := fun heq => not_mem_of_isEscapeChar h hc (heq ▸ hx)
    simp [hne]

theorem resolve_eq_self : resolve ('/' :: s) = '/' :: s := by
  have hslash : '/' ∉ s := not_mem_of_isEscapeChar h (by decide)
  have hpoint : '.' ∉ s := not_mem_of_isEscapeChar h (by decide)
  have hhere : s ≠ ['.'] := by
    rintro rfl
    exact hpoint List.mem_cons_self
  have hup : s ≠ ['.', '.'] := by
    rintro rfl
    exact hpoint List.mem_cons_self
  simp [resolve, splitAt, splitAt_eq_self hslash, resolveSegment, hhere, hup, List.intercalate]

theorem pathOf_eq : pathOf ('/' :: s) false = String.ofList (unescape (unescape ('/' :: s))) := by
  have hslash : '/' ∉ s := not_mem_of_isEscapeChar h (by decide)
  have hroot : fromRoot ('/' :: s) = '/' :: s := by
    cases s with
    | nil => rfl
    | cons c rest =>
        have hne : c ≠ '/' := fun heq => hslash (heq ▸ List.mem_cons_self)
        simp [fromRoot, hne]
  have hplain : escape ('/' :: s) = '/' :: s := by
    apply escape_eq_self
    intro c hc
    rcases List.mem_cons.1 hc with rfl | hc
    · decide
    · have hrange := toNat_of_isEscapeChar (h c hc)
      omega
  simp [pathOf, hroot, resolve_eq_self h, orRoot, hplain]

theorem ofReference_eq : ofReference (String.ofList ('/' :: s)) =
    ⟨String.ofList (unescape (unescape ('/' :: s))), []⟩ := by
  have hscheme : dropScheme ('/' :: s) = (false, '/' :: s) := rfl
  have hfragment := cutAt_eq_self_of_isEscapeChar h (c := '#') (by decide) (by decide)
  have hquery := cutAt_eq_self_of_isEscapeChar h (c := '?') (by decide) (by decide)
  simp only [ofReference, String.toList_ofList, hscheme, dropAuthority_eq_self h, hfragment,
    hquery, Bool.and_false, pathOf_eq h]
  rfl

end

/-- What is read from the reference to a path is the path. -/
theorem ofReference_reference {path : String} {rest : List Char} (h : path.toList = '/' :: rest) :
    ofReference (reference path) = ⟨path, []⟩ := by
  rw [reference, h, List.drop_succ_cons, List.drop_zero,
    ofReference_eq fun _ => isEscapeChar_of_mem, unescape_slash_escapeAll,
    unescape_slash_escapeAll, ← h, String.ofList_toList]

end Target

end Http

end MarketMaker
