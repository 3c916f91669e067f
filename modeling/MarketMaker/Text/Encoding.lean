import MarketMaker.Text.CodePoints
import MarketMaker.Text.Utf8

/-! Bytes as text in units of two or four bytes. Surrogates without a partner pass; bytes left over
at the end and numbers that are no code points do not. -/

namespace MarketMaker.Text

inductive Encoding
  | utf8
  | utf16 (bigEndian : Bool)
  | utf32 (bigEndian : Bool)
  deriving DecidableEq, Repr

def units16? (bigEndian : Bool) : List Nat → Option (List Nat)
  | [] => some []
  | [_] => none
  | a :: b :: rest =>
    (units16? bigEndian rest).map ((if bigEndian then 256 * a + b else 256 * b + a) :: ·)

def units32? (bigEndian : Bool) (bytes : List Nat) : Option (List Nat) := do
  let halves ← units16? bigEndian bytes
  joined halves
where
  joined : List Nat → Option (List Nat)
    | [] => some []
    | [_] => none
    | a :: b :: rest =>
      (joined rest).map ((if bigEndian then 65536 * a + b else 65536 * b + a) :: ·)

def joinPairs : List Nat → List Nat
  | high :: low :: rest =>
    if isHighSurrogate high && isLowSurrogate low then joinSurrogates high low :: joinPairs rest
    else high :: joinPairs (low :: rest)
  | units => units

namespace Encoding

/-- The encoding of a text whose first characters are in ASCII, by the place of its zero bytes. -/
def ofBytes : List Nat → Encoding
  | [a, b] => if a = 0 then utf16 true else if b = 0 then utf16 false else utf8
  | a :: b :: c :: d :: _ =>
    if a = 0 then if b = 0 then utf32 true else utf16 true
    else if b = 0 then if c = 0 ∧ d = 0 then utf32 false else utf16 false
    else utf8
  | _ => utf8

def decode? : Encoding → List Nat → Option CodePoints
  | utf8, bytes => some (.ofString (String.ofList (decodeBytes bytes)))
  | utf16 bigEndian, bytes => (units16? bigEndian bytes).map fun units => ⟨joinPairs units⟩
  | utf32 bigEndian, bytes =>
    ((units32? bigEndian bytes).filter fun units => units.all (· < 0x110000)).map .mk

end Encoding

end MarketMaker.Text
