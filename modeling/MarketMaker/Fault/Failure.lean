import MarketMaker.Fault.Basic
import MarketMaker.Fault.Number
import MarketMaker.Fault.Value
import MarketMaker.Json.Basic

/-! Everything that ends a call without a result: a domain fault, a value that cannot be taken, a
value of the wrong type, a number out of range, input that a model rejects, text that is not JSON,
or a missing file. -/

namespace MarketMaker

/-- What is wrong with one place of an input. -/
inductive ProblemKind
  | missing
  | modelType
  | modelAttributesType
  | listType
  | stringType
  | stringUnicode
  | stringTooShort
  | stringTooLong
  | stringPattern
  | intType
  | intParsing
  | intParsingSize
  | intFromDecimal
  | finiteNumber
  | belowLeast
  | aboveGreatest
  | literal
  | tagNotFound
  | tagInvalid
  | value (cause : ValueFault)
  deriving DecidableEq, Repr

namespace ProblemKind

def name : ProblemKind → String
  | missing => "missing"
  | modelType => "model_type"
  | modelAttributesType => "model_attributes_type"
  | listType => "list_type"
  | stringType => "string_type"
  | stringUnicode => "string_unicode"
  | stringTooShort => "string_too_short"
  | stringTooLong => "string_too_long"
  | stringPattern => "string_pattern_mismatch"
  | intType => "int_type"
  | intParsing => "int_parsing"
  | intParsingSize => "int_parsing_size"
  | intFromDecimal => "int_from_float"
  | finiteNumber => "finite_number"
  | belowLeast => "greater_than_equal"
  | aboveGreatest => "less_than_equal"
  | literal => "literal_error"
  | tagNotFound => "union_tag_not_found"
  | tagInvalid => "union_tag_invalid"
  | value _ => "value_error"

def message? : ProblemKind → Option Text.CodePoints
  | value cause => some (.ofString "Value error, " ++ cause.message)
  | _ => none

end ProblemKind

structure Problem where
  kind : ProblemKind
  path : List String
  deriving DecidableEq, Repr

/-- A value of a type that an operation does not take. -/
inductive TypeFault
  | integerRequired (typeName : String)
  | atomicsRequired (typeName : String)
  | unsupportedCurve (name : String)
  | unsupportedOperands
  deriving DecidableEq, Repr

namespace TypeFault

def message? : TypeFault → Option String
  | integerRequired typeName => some s!"SafeInt requires int, got {typeName}"
  | atomicsRequired typeName => some s!"Ratio requires int atomics, got {typeName}"
  | unsupportedCurve name => some s!"Unsupported pool type: {name}"
  | unsupportedOperands => none

end TypeFault

inductive Failure
  | fault (cause : Fault)
  | value (cause : ValueFault)
  | type (cause : TypeFault)
  | number (cause : NumberFault)
  | rejected (problems : List Problem)
  | malformedText
  /-- Text with too many arrays and objects inside each other. -/
  | nestedTooDeep (container : Json.Container)
  | missingFile
  deriving DecidableEq, Repr

abbrev Result := Except Failure

namespace Failure

def message? : Failure → Option Text.CodePoints
  | fault cause => some cause.message
  | value cause => some cause.message
  | type cause => cause.message?.map .ofString
  | number cause => some cause.message
  | rejected _ => none
  | malformedText => none
  | nestedTooDeep container =>
    some ("maximum recursion depth exceeded while decoding a JSON " ++ container.name ++
      " from a unicode string")
  | missingFile => none

/-- The failure as it is reported: a text with an integer that is too long cannot be written. -/
def reported : Failure → Failure
  | fault cause =>
    if cause.integers.all Text.isWritable then fault cause else value .unwritable
  | e => e

def isFault : Failure → Bool
  | fault _ => true
  | _ => false

end Failure

def fail {α : Type} (cause : Fault) : Result α := .error (.fault cause)

end MarketMaker
