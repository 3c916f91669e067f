import MarketMaker.Text.Blank
import MarketMaker.Text.Digit

/-! Integers in text. A numeral is an optional sign and decimal digits of any script, single
underscores allowed between two digits; white space around it does not count. Numerals over 4300
digits are neither read nor written. -/

namespace MarketMaker.Text

inductive NumeralFault
  | malformed
  | tooLong (digits : Nat)
  deriving DecidableEq, Repr

/-- The most digits that a numeral is read with. -/
def digitLimit : Nat := 4300

/-- The least number that is too long to be written. -/
def writeLimit : Nat := Nat.pow 10 digitLimit

def isWritable (n : Int) : Bool := n.natAbs < writeLimit

def startsWithDigit : List Char → Bool
  | [] => false
  | c :: _ => (decimalDigit? c).isSome

/-- Splits off the longest run of digits, with single underscores between them. -/
def digitRun : List Char → List Nat × List Char
  | [] => ([], [])
  | c :: rest =>
    match decimalDigit? c with
    | some d => (d :: (digitRun rest).1, (digitRun rest).2)
    | none => if c = '_' && startsWithDigit rest then digitRun rest else ([], c :: rest)

def ofDigits (digits : List Nat) : Nat :=
  digits.foldl (fun n d => 10 * n + d) 0

/-- A numeral without a sign. The length is reported before anything that follows the digits, save
an underscore. -/
def readNatural (s : List Char) : Except NumeralFault Nat :=
  if !startsWithDigit s then .error .malformed
  else
    let run := digitRun s
    if run.2.head? = some '_' then .error .malformed
    else if digitLimit < run.1.length then .error (.tooLong run.1.length)
    else if run.2 ≠ [] then .error .malformed
    else .ok (ofDigits run.1)

def readInteger (s : List Char) : Except NumeralFault Int :=
  match trim isWhiteSpace s with
  | '-' :: rest => (readNatural rest).map fun n => -(n : Int)
  | '+' :: rest => (readNatural rest).map fun n => (n : Int)
  | rest => (readNatural rest).map fun n => (n : Int)

end MarketMaker.Text
