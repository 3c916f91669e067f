import MarketMaker.Reading.Basic
import MarketMaker.Text.Blank
import MarketMaker.Text.Digit
import MarketMaker.Text.Numeral

/-! Integers in the texts of models. Such a text is cleaned first: white space at its ends, a plus
sign, zeros in front, a fraction of zeros and single underscores between other characters are
dropped. What is left must be an optional minus sign and ASCII digits. Zeros in front may hide a
second sign. -/

namespace MarketMaker.Reading

def isLeadingDigit (c : Char) : Bool := '1' ≤ c && c ≤ '9'

/-- What follows zeros and underscores, of which the given one is the last. It begins with a digit
or a minus sign; a point and the end of the text keep that last one. -/
def afterZeros? (last : Char) : List Char → Option (List Char)
  | [] => some [last]
  | c :: rest =>
    if c = '0' ∨ c = '_' then afterZeros? c rest
    else if isLeadingDigit c ∨ c = '-' then some (c :: rest)
    else if c = '.' then some (last :: c :: rest)
    else none

/-- Drops zeros in front, and underscores after the first of them. -/
def dropLeadingZeros? : List Char → Option (List Char)
  | [] => none
  | c :: rest =>
    if c = '0' then afterZeros? c rest
    else if isLeadingDigit c then some (c :: rest)
    else none

def dropZeroFraction (s : List Char) : List Char :=
  match s.dropWhile (· ≠ '.') with
  | [] => s
  | _ :: fraction =>
    if fraction ≠ [] ∧ fraction.all (· = '0') then s.takeWhile (· ≠ '.') else s

def hasDoubleUnderscore : List Char → Bool
  | '_' :: '_' :: _ => true
  | _ :: rest => hasDoubleUnderscore rest
  | [] => false

/-- Drops underscores, if each stands alone between two other characters. -/
def dropUnderscores (s : List Char) : List Char :=
  if s.head? = some '_' ∨ s.getLast? = some '_' ∨ hasDoubleUnderscore s then s
  else s.filter (· ≠ '_')

def cleaned? (s : List Char) : Option (List Char) :=
  (dropLeadingZeros? s).map fun rest => dropUnderscores (dropZeroFraction rest)

/-- A text without all that does not count; a sign may be given before it, but not two. -/
def signedCleaned? : List Char → Option (List Char)
  | '+' :: '-' :: _ => none
  | '+' :: rest => cleaned? rest
  | '-' :: rest => (cleaned? rest).map ('-' :: ·)
  | s => cleaned? s

def plainNatural? : List Char → Option Nat
  | [] => none
  | c :: rest =>
    if c = '0' ∧ rest = [] then some 0
    else if isLeadingDigit c ∧ rest.all Text.isAsciiDigit ∧ rest.length < Text.digitLimit then
      some (Text.ofAsciiDigits (c :: rest))
    else none

def plainInteger? : List Char → Option Int
  | '-' :: rest => (plainNatural? rest).map fun n => -(n : Int)
  | s => (plainNatural? s).map fun n => (n : Int)

def beginsTooLong (s : List Char) : Bool :=
  s.head?.any isLeadingDigit && Text.digitLimit < (s.takeWhile Text.isAsciiDigit).length

def signedBeginsTooLong : List Char → Bool
  | '-' :: rest => beginsTooLong rest
  | s => beginsTooLong s

/-- Reads an integer from a text. Too many digits are a problem of their own only at the start of
the text as it was given. -/
def ofText (s : String) : Reading Int :=
  if signedBeginsTooLong s.toList then problem .intParsingSize
  else
    match (signedCleaned? (Text.trim Text.isWhiteSpace s.toList)).bind plainInteger? with
    | some n => accepted n
    | none => problem .intParsing

end MarketMaker.Reading
