/-! Texts as code points. Unlike a string, such a text may hold surrogates without a partner; it is
a string as well when it holds none. -/

namespace MarketMaker.Text

def isHighSurrogate (n : Nat) : Bool := 0xD800 ≤ n && n ≤ 0xDBFF

def isLowSurrogate (n : Nat) : Bool := 0xDC00 ≤ n && n ≤ 0xDFFF

def joinSurrogates (high low : Nat) : Nat :=
  0x10000 + (high - 0xD800) * 0x400 + (low - 0xDC00)

def charOf? (n : Nat) : Option Char :=
  if h : n.isValidChar then some (Char.ofNatAux n h) else none

structure CodePoints where
  codes : List Nat
  deriving DecidableEq, Repr

namespace CodePoints

def ofString (s : String) : CodePoints := ⟨s.toList.map Char.toNat⟩

instance : Coe String CodePoints := ⟨ofString⟩

def append (s t : CodePoints) : CodePoints := ⟨s.codes ++ t.codes⟩

instance : Append CodePoints := ⟨append⟩

def string? (t : CodePoints) : Option String := (t.codes.mapM charOf?).map String.ofList

/-- The string with a replacement character for each surrogate. -/
def replaced (t : CodePoints) : String :=
  String.ofList (t.codes.map fun n => (charOf? n).getD '\uFFFD')

end CodePoints

theorem charOf?_toNat (c : Char) : charOf? c.toNat = some c := by
  have h : c.toNat.isValidChar := c.valid
  rw [charOf?, dif_pos h]
  exact congrArg some (Char.ext rfl)

theorem mapM_charOf?_toNat (s : List Char) : (s.map Char.toNat).mapM charOf? = some s := by
  induction s with
  | nil => rfl
  | cons c rest ih => simp [List.mapM_cons, charOf?_toNat, ih]

theorem CodePoints.string?_ofString (s : String) : (ofString s).string? = some s := by
  rw [string?, ofString, mapM_charOf?_toNat, Option.map_some, String.ofList_toList]

end MarketMaker.Text
