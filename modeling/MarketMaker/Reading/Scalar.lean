import MarketMaker.Checked.Basic
import MarketMaker.Ratio.Reader
import MarketMaker.Reading.Numeral

namespace MarketMaker.Reading

/-! ### Texts -/

def text : Json → Reading String
  | .text s => accepted s
  | .brokenText _ => problem .stringUnicode
  | _ => problem .stringType

def name (v : Json) : Reading String :=
  (text v).andThen fun s => if s = "" then problem .stringTooShort else accepted s

def identifier (maxLength : Nat) (allowed : Char → Bool) (v : Json) : Reading String :=
  (name v).andThen fun s =>
    if maxLength < s.length then problem .stringTooLong
    else if s.toList.all allowed then accepted s
    else problem .stringPattern

/-! ### Integers -/

/-- The integers that a decimal may stand for: those of 64 bits, save the least. -/
def fitsWord (n : Int) : Bool := -9223372036854775808 < n && n < 9223372036854775808

def ofDecimal (x : Decimal) : Reading Int :=
  match x.nearest? with
  | none => problem .finiteNumber
  | some b =>
    match b.whole? with
    | none => problem .intFromDecimal
    | some n => if fitsWord n then accepted n else problem .intParsingSize

def integer : Json → Reading Int
  | .int n => accepted n
  | .bool b => accepted (if b then 1 else 0)
  | .decimal x => ofDecimal x
  | .text s => ofText s
  | .brokenText _ => problem .stringUnicode
  | _ => problem .intType

def bounded (least greatest : Int) (v : Json) : Reading Int :=
  (integer v).andThen fun n =>
    if n < least then problem .belowLeast
    else if greatest < n then problem .aboveGreatest
    else accepted n

/-! ### Amounts and ratios -/

def amountOfInt (n : Int) : Except ValueFault Int :=
  if n < 0 then .error (.amountNegative n)
  else if maxAmount < n then .error (.amountTooLarge n)
  else .ok n

/-- An amount of 128 bits, from an integer or its text. -/
def amountOf : Json → Except ValueFault Int
  | .int n => amountOfInt n
  | .text s =>
    match Text.readInteger s.toList with
    | .ok n => amountOfInt n
    | .error _ => .error (.amountText s)
  | .brokenText t => .error (.amountText t)
  | .bool _ => .error .amountBool
  | v => .error (.amountType v.typeName)

def amount (v : Json) : Reading Int := ofExcept (amountOf v)

def ratio (v : Json) : Reading Ratio := ofExcept (Ratio.ofJson v)

/-! ### Constants -/

def literal (expected : String) : Json → Reading Unit
  | .text s => if s = expected then accepted () else problem .literal
  | .brokenText _ => problem .stringUnicode
  | _ => problem .literal

theorem amountOfInt_eq_ok_iff {m n : Int} :
    amountOfInt m = .ok n ↔ 0 ≤ m ∧ m ≤ maxAmount ∧ n = m := by
  unfold amountOfInt
  split
  · simp only [reduceCtorEq, false_iff]; omega
  · split
    · simp only [reduceCtorEq, false_iff]; omega
    · simp only [Except.ok.injEq]; omega

end MarketMaker.Reading
