import MarketMaker.Text.Hex
import MarketMaker.Text.Utf8

/-! Percent escapes. The bytes that escapes stand for are read as UTF-8 together with the ASCII
characters around them; a percent sign without two hexadecimal digits stays as it is. -/

namespace MarketMaker.Http

def escapeByte (b : Nat) : List Char := '%' :: (Text.hexDigits 2 b).map Char.toUpper

/-- Escapes the characters beyond ASCII. -/
def escape (s : List Char) : List Char :=
  s.flatMap fun c => if c.toNat < 0x80 then [c] else (Text.utf8Bytes c).flatMap escapeByte

/-- The byte of an escape, whose percent sign has been read, and what follows it. -/
def escapedByte? : List Char → Option (Nat × List Char)
  | a :: b :: rest =>
    match Text.hexValue? a, Text.hexValue? b with
    | some m, some n => some (16 * m + n, rest)
    | _, _ => none
  | _ => none

/-- Replaces escapes; `bytes` holds those read since the last character beyond ASCII, last first,
and `skip` counts the characters of an escape that has been read. -/
def unescapeFrom (bytes : List Nat) (skip : Nat) : List Char → List Char
  | [] => Text.decodeBytes bytes.reverse
  | c :: rest =>
    if 0 < skip then unescapeFrom bytes (skip - 1) rest
    else if c = '%' then
      match escapedByte? rest with
      | some (b, _) => unescapeFrom (b :: bytes) 2 rest
      | none => unescapeFrom (c.toNat :: bytes) 0 rest
    else if c.toNat < 0x80 then unescapeFrom (c.toNat :: bytes) 0 rest
    else Text.decodeBytes bytes.reverse ++ c :: unescapeFrom [] 0 rest

def unescape (s : List Char) : List Char := unescapeFrom [] 0 s

end MarketMaker.Http
