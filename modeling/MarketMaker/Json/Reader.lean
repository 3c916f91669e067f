import MarketMaker.Json.Basic
import MarketMaker.Text.Hex
import MarketMaker.Text.Numeral

/-! Reading JSON text. Besides the standard grammar the three words `NaN`, `Infinity` and
`-Infinity` stand for numbers, and integer numerals are limited in length. The nesting of arrays and
objects may be limited too. -/

namespace MarketMaker.Json

inductive ReadFault
  | malformed
  | numeralTooLong (digits : Nat)
  | nestedTooDeep (container : Container)
  deriving DecidableEq, Repr

def isSpace (c : Char) : Bool :=
  c = ' ' || c = '\t' || c = '\n' || c = '\r'

def skipSpace (s : List Char) : List Char :=
  s.dropWhile isSpace

def afterWord? : List Char → List Char → Option (List Char)
  | [], s => some s
  | c :: word, d :: s => if c = d then afterWord? word s else none
  | _ :: _, [] => none

/-! ### Texts -/

def hexUnit? : List Char → Option (Nat × List Char)
  | a :: b :: c :: d :: rest => do
    let a ← Text.hexValue? a
    let b ← Text.hexValue? b
    let c ← Text.hexValue? c
    let d ← Text.hexValue? d
    some (((a * 16 + b) * 16 + c) * 16 + d, rest)
  | _ => none

def lowSurrogate? (s : List Char) : Option (Nat × List Char) := do
  let rest ← afterWord? ['\\', 'u'] s
  let (low, rest) ← hexUnit? rest
  if Text.isLowSurrogate low then some (low, rest) else none

/-- The code point of an escape by code; two surrogates that belong together are one. -/
def codeEscape? (s : List Char) : Option (Nat × List Char) := do
  let (unit, rest) ← hexUnit? s
  if Text.isHighSurrogate unit then
    match lowSurrogate? rest with
    | some (low, rest') => some (Text.joinSurrogates unit low, rest')
    | none => some (unit, rest)
  else some (unit, rest)

def shortEscape? : Char → Option Char
  | '"' => some '"'
  | '\\' => some '\\'
  | '/' => some '/'
  | 'b' => some '\x08'
  | 'f' => some '\x0C'
  | 'n' => some '\n'
  | 'r' => some '\r'
  | 't' => some '\t'
  | _ => none

/-- The code point that an escape stands for; the backslash has been read. -/
def escape? : List Char → Option (Nat × List Char)
  | [] => none
  | 'u' :: rest => codeEscape? rest
  | c :: rest => (shortEscape? c).map fun d => (d.toNat, rest)

/-- Reads up to the closing quote; `read` holds what has been read, last code point first. -/
def textBody? : Nat → List Nat → List Char → Option (Text.CodePoints × List Char)
  | 0, _, _ => none
  | fuel + 1, read, s =>
    match s with
    | [] => none
    | '"' :: rest => some (⟨read.reverse⟩, rest)
    | '\\' :: rest =>
      match escape? rest with
      | some (n, rest') => textBody? fuel (n :: read) rest'
      | none => none
    | c :: rest => if c.toNat < 0x20 then none else textBody? fuel (c.toNat :: read) rest

/-! ### Numbers -/

/-- The digits before the point: a single zero, or digits that do not begin with one. -/
def wholeDigits? : List Char → Option (List Char × List Char)
  | '0' :: rest => some (['0'], rest)
  | s =>
    let run := s.span Text.isAsciiDigit
    if run.1 = [] then none else some run

def fractionDigits? : List Char → Option (List Char × List Char)
  | '.' :: rest =>
    let run := rest.span Text.isAsciiDigit
    if run.1 = [] then none else some run
  | _ => none

def unsignedExponent? (s : List Char) : Option (Nat × List Char) :=
  let run := s.span Text.isAsciiDigit
  if run.1 = [] then none else some (Text.ofAsciiDigits run.1, run.2)

def signedExponent? : List Char → Option (Int × List Char)
  | '-' :: rest => (unsignedExponent? rest).map fun r => (-(r.1 : Int), r.2)
  | '+' :: rest => (unsignedExponent? rest).map fun r => ((r.1 : Int), r.2)
  | s => (unsignedExponent? s).map fun r => ((r.1 : Int), r.2)

def exponentPart? : List Char → Option (Int × List Char)
  | 'e' :: rest => signedExponent? rest
  | 'E' :: rest => signedExponent? rest
  | _ => none

def number (negative : Bool) (s : List Char) : Except ReadFault (Json × List Char) :=
  match wholeDigits? s with
  | none => .error .malformed
  | some (whole, rest) =>
    let fraction := (fractionDigits? rest).getD ([], rest)
    let exponent := (exponentPart? fraction.2).getD (0, fraction.2)
    if fraction.1 = [] && (exponentPart? fraction.2).isNone then
      if Text.digitLimit < whole.length then .error (.numeralTooLong whole.length)
      else
        let n : Int := Text.ofAsciiDigits whole
        .ok (.int (if negative then -n else n), rest)
    else
      .ok (.decimal (.finite negative (Text.ofAsciiDigits (whole ++ fraction.1))
        (exponent.1 - fraction.1.length)), exponent.2)

/-! ### Values -/

def words : List (List Char × Json) :=
  [ ("null".toList, .null),
    ("true".toList, .bool true),
    ("false".toList, .bool false),
    ("NaN".toList, .decimal .undefined),
    ("Infinity".toList, .decimal (.infinite false)),
    ("-Infinity".toList, .decimal (.infinite true)) ]

def word? (s : List Char) : Option (Json × List Char) :=
  words.findSome? fun w => (afterWord? w.1 s).map fun rest => (w.2, rest)

def scalar (s : List Char) : Except ReadFault (Json × List Char) :=
  match word? s with
  | some result => .ok result
  | none =>
    match s with
    | '-' :: rest => number true rest
    | _ => number false s

/-- A field of an object. Nothing looks up a name that is no string; such a field holds the name in
the place of its value. -/
def member (name : Text.CodePoints) (v : Json) : String × Json :=
  match name.string? with
  | some s => (s, v)
  | none => (name.replaced, .brokenText name)

mutual

/-- Reads one value. The fuel bounds the number of steps; twice the length of the text is enough.
The nesting bounds the arrays and objects around a value. -/
def value : Nat → Nat → List Char → Except ReadFault (Json × List Char)
  | 0, _, _ => .error .malformed
  | fuel + 1, nesting, s =>
    match s with
    | '"' :: rest =>
      match textBody? fuel [] rest with
      | some (t, rest') => .ok (ofCodePoints t, rest')
      | none => .error .malformed
    | '[' :: rest =>
      if nesting = 0 then .error (.nestedTooDeep .array)
      else
        match skipSpace rest with
        | ']' :: rest' => .ok (.list [], rest')
        | rest' =>
          match items fuel (nesting - 1) [] rest' with
          | .ok (vs, rest'') => .ok (.list vs, rest'')
          | .error e => .error e
    | '\x7b' :: rest =>
      if nesting = 0 then .error (.nestedTooDeep .object)
      else
        match skipSpace rest with
        | '\x7d' :: rest' => .ok (.object [], rest')
        | rest' =>
          match members fuel (nesting - 1) [] rest' with
          | .ok (fs, rest'') => .ok (.object fs, rest'')
          | .error e => .error e
    | _ => scalar s

/-- Reads the values of a list up to its closing bracket; `read` holds them last first. -/
def items : Nat → Nat → List Json → List Char → Except ReadFault (List Json × List Char)
  | 0, _, _, _ => .error .malformed
  | fuel + 1, nesting, read, s =>
    match value fuel nesting s with
    | .error e => .error e
    | .ok (v, rest) =>
      match skipSpace rest with
      | ',' :: rest' => items fuel nesting (v :: read) (skipSpace rest')
      | ']' :: rest' => .ok ((v :: read).reverse, rest')
      | _ => .error .malformed

def members : Nat → Nat → List (String × Json) → List Char →
    Except ReadFault (List (String × Json) × List Char)
  | 0, _, _, _ => .error .malformed
  | fuel + 1, nesting, read, s =>
    match s with
    | '"' :: rest =>
      match textBody? fuel [] rest with
      | none => .error .malformed
      | some (name, rest) =>
        match skipSpace rest with
        | ':' :: rest =>
          match value fuel nesting (skipSpace rest) with
          | .error e => .error e
          | .ok (v, rest) =>
            match skipSpace rest with
            | ',' :: rest' => members fuel nesting (member name v :: read) (skipSpace rest')
            | '\x7d' :: rest' => .ok ((member name v :: read).reverse, rest')
            | _ => .error .malformed
        | _ => .error .malformed
    | _ => .error .malformed

end

/-- Reads a text that is one JSON value, with nothing but space around it, and with at most the
given number of arrays and objects around any value. -/
def parseWithin (nesting : Nat) (s : String) : Except ReadFault Json :=
  let chars := s.toList
  match value (2 * chars.length + 2) nesting (skipSpace chars) with
  | .error e => .error e
  | .ok (v, rest) => if skipSpace rest = [] then .ok v else .error .malformed

def parse (s : String) : Except ReadFault Json := parseWithin s.length s

end MarketMaker.Json
