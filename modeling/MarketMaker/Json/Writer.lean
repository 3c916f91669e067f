import MarketMaker.Json.Basic
import MarketMaker.Text.Quoted

/-! Writing JSON text, without spaces. Only quotes, backslashes, control characters and surrogates
are escaped. -/

namespace MarketMaker.Json

def escapeChar (c : Char) : List Char :=
  if c = '"' then ['\\', '"']
  else if c = '\\' then ['\\', '\\']
  else if c.toNat < 0x20 then '\\' :: 'u' :: Text.hexDigits 4 c.toNat
  else [c]

def renderText (s : String) : String :=
  String.ofList ('"' :: s.toList.flatMap escapeChar ++ ['"'])

/-- A code point in a text; a surrogate is escaped. -/
def escapeCode (n : Nat) : List Char :=
  match Text.charOf? n with
  | some c => escapeChar c
  | none => '\\' :: 'u' :: Text.hexDigits 4 n

def renderBrokenText (t : Text.CodePoints) : String :=
  String.ofList ('"' :: t.codes.flatMap escapeCode ++ ['"'])

/-- Writes the digits as an integer, and always the exponent. -/
def renderDecimal : Decimal → String
  | .finite negative digits exponent =>
    (if negative then "-" else "") ++ toString digits ++ "e" ++ toString exponent
  | .infinite negative => (if negative then "-" else "") ++ "Infinity"
  | .undefined => "NaN"

mutual

def render : Json → String
  | .null => "null"
  | .bool b => if b then "true" else "false"
  | .int n => toString n
  | .decimal x => renderDecimal x
  | .text s => renderText s
  | .brokenText t => renderBrokenText t
  | .list items => "[" ++ renderItems items ++ "]"
  | .object fields => "\x7b" ++ renderFields fields ++ "\x7d"

def renderItems : List Json → String
  | [] => ""
  | [v] => render v
  | v :: rest => render v ++ "," ++ renderItems rest

def renderFields : List (String × Json) → String
  | [] => ""
  | [(name, v)] => renderText name ++ ":" ++ render v
  | (name, v) :: rest => renderText name ++ ":" ++ render v ++ "," ++ renderFields rest

end

end MarketMaker.Json
