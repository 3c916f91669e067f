import MarketMaker.Ratio.Basic
import MarketMaker.Text.CodePoints
import MarketMaker.Text.Numeral
import MarketMaker.Text.Quoted

/-! Values that cannot be taken: texts that are no number, amounts out of range, settings that make
no sense. Each cause has a constructor, and `message` gives its text. -/

namespace MarketMaker

inductive ValueFault
  | invalidInteger (text : String)
  | integerTooLong (digits : Nat)
  /-- An integer that is too long to be written. -/
  | unwritable
  | invalidDecimal (text : Text.CodePoints)
  | fractionTooLong (text : String)
  | negativeRatio (atomics : Int)
  | ratioType (typeName : String)
  | amountBool
  | amountText (text : Text.CodePoints)
  | amountType (typeName : String)
  | amountNegative (amount : Int)
  | amountTooLarge (amount : Int)
  | scaleUp (source target : Int)
  | scaleDown (source target : Int)
  | noLargest
  | noSmallest
  | unknownDirection (text : String)
  | assetCount (count : Nat)
  | repeatedDenoms (denoms : List String)
  | decimalsCount (expected actual : Nat)
  deriving DecidableEq, Repr

namespace ValueFault

/-- The most characters of a quoted text in the message about a numeral. -/
def quoteLimit : Nat := 200

def excerpt (text : String) : String := String.ofList ((Text.quoted text).toList.take quoteLimit)

def unwritableText : String :=
  s!"Exceeds the limit ({Text.digitLimit} digits) for integer string conversion; use " ++
    "sys.set_int_max_str_digits() to increase the limit"

/-- A text that holds an integer, if that can be written. -/
def withInteger (n : Int) (text : String) : String :=
  if Text.isWritable n then text else unwritableText

def message : ValueFault → Text.CodePoints
  | invalidInteger text => "invalid literal for int() with base 10: " ++ excerpt text
  | integerTooLong digits =>
    s!"Exceeds the limit ({Text.digitLimit} digits) for integer string conversion: value has " ++
      s!"{digits} digits; use sys.set_int_max_str_digits() to increase the limit"
  | unwritable => unwritableText
  | invalidDecimal text => .ofString "Invalid decimal: '" ++ text ++ .ofString "'"
  | fractionTooLong text => s!"Too many fractional digits (max {Ratio.places}): '{text}'"
  | negativeRatio atomics => withInteger atomics s!"Ratio cannot be negative: {atomics}"
  | ratioType typeName => s!"Ratio must be a decimal string or int, got {typeName}"
  | amountBool => "Uint128 cannot be a bool"
  | amountText text =>
    .ofString "Uint128 must be a decimal integer string: '" ++ text ++ .ofString "'"
  | amountType typeName => s!"Uint128 must be string or int, got {typeName}"
  | amountNegative amount => s!"Uint128 cannot be negative: {amount}"
  | amountTooLarge amount => s!"Uint128 overflow: {amount} > 2^128-1"
  | scaleUp source target => s!"Cannot scale up from {source} to {target} decimals"
  | scaleDown source target => s!"Cannot scale down from {source} to {target} decimals"
  | noLargest => "max() arg is an empty sequence"
  | noSmallest => "min() arg is an empty sequence"
  | unknownDirection text => Text.quoted text ++ " is not a valid StableSwapDirection"
  | assetCount count => s!"A pool holds between 2 and 4 assets, got {count}"
  | repeatedDenoms denoms => "Pool asset denoms must be unique: " ++ Text.quotedList denoms
  | decimalsCount expected actual => s!"Expected {expected} asset decimals, got {actual}"

def ofNumeral (text : String) : Text.NumeralFault → ValueFault
  | .malformed => invalidInteger text
  | .tooLong digits => integerTooLong digits

end ValueFault

end MarketMaker
