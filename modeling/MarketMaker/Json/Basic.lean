import MarketMaker.Number.Decimal
import MarketMaker.Text.CodePoints

/-! JSON values. Integers are exact and of any size; numbers written with a point or an exponent are
a type of their own, and so are texts that hold a surrogate without its partner. -/

namespace MarketMaker

inductive Json
  | null
  | bool (b : Bool)
  | int (n : Int)
  | decimal (x : Decimal)
  | text (s : String)
  /-- A text that is no string. -/
  | brokenText (t : Text.CodePoints)
  | list (items : List Json)
  | object (fields : List (String × Json))
  deriving Inhabited

namespace Json

inductive Container
  | array
  | object
  deriving DecidableEq, Repr

def Container.name : Container → String
  | array => "array"
  | object => "object"

def typeName : Json → String
  | null => "NoneType"
  | bool _ => "bool"
  | int _ => "int"
  | decimal _ => "float"
  | text _ | brokenText _ => "str"
  | list _ => "list"
  | object _ => "dict"

def ofCodePoints (t : Text.CodePoints) : Json :=
  match t.string? with
  | some s => text s
  | none => brokenText t

/-- The last value given under a name. -/
def lookup (name : String) : List (String × Json) → Option Json
  | [] => none
  | (key, value) :: rest => (lookup name rest).or (if key = name then some value else none)

def field? (name : String) : Json → Option Json
  | object fields => lookup name fields
  | _ => none

/-- The value under a name or at an index. -/
def part? (step : String) : Json → Option Json
  | object fields => lookup step fields
  | list items => step.toNat?.bind fun i => items[i]?
  | _ => none

def at? (v : Json) : List String → Option Json
  | [] => some v
  | step :: rest => (v.part? step).bind fun w => w.at? rest

theorem ofCodePoints_ofString (s : String) : ofCodePoints (.ofString s) = text s := by
  rw [ofCodePoints, Text.CodePoints.string?_ofString]

end Json

end MarketMaker
