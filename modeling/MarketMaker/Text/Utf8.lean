/-! Bytes as text. Bytes that are no well-formed UTF-8 give the replacement character, one for each
longest start of a sequence that is broken off. -/

namespace MarketMaker.Text

def utf8Bytes (c : Char) : List Nat := (String.utf8EncodeChar c).map UInt8.toNat

/-- A sequence that has begun: how many bytes are missing, the range of the next one, and the bits
so far. -/
structure Sequence where
  missing : Nat
  low : Nat
  high : Nat
  bits : Nat

def replacement : Char := '\uFFFD'

def sequence? (b : Nat) : Option Sequence :=
  if 0xC2 ≤ b ∧ b ≤ 0xDF then some ⟨1, 0x80, 0xBF, b - 0xC0⟩
  else if b = 0xE0 then some ⟨2, 0xA0, 0xBF, 0⟩
  else if b = 0xED then some ⟨2, 0x80, 0x9F, 0xD⟩
  else if 0xE1 ≤ b ∧ b ≤ 0xEF then some ⟨2, 0x80, 0xBF, b - 0xE0⟩
  else if b = 0xF0 then some ⟨3, 0x90, 0xBF, 0⟩
  else if 0xF1 ≤ b ∧ b ≤ 0xF3 then some ⟨3, 0x80, 0xBF, b - 0xF0⟩
  else if b = 0xF4 then some ⟨3, 0x80, 0x8F, 4⟩
  else none

def firstByte (b : Nat) : List Char × Option Sequence :=
  if b < 0x80 then ([Char.ofNat b], none)
  else
    match sequence? b with
    | some s => ([], some s)
    | none => ([replacement], none)

def nextByte (s : Sequence) (b : Nat) : List Char × Option Sequence :=
  if s.low ≤ b ∧ b ≤ s.high then
    let bits := s.bits * 64 + (b - 0x80)
    if s.missing ≤ 1 then ([Char.ofNat bits], none)
    else ([], some ⟨s.missing - 1, 0x80, 0xBF, bits⟩)
  else
    let first := firstByte b
    (replacement :: first.1, first.2)

def decodeFrom : Option Sequence → List Nat → List Char
  | none, [] => []
  | some _, [] => [replacement]
  | none, b :: rest => (firstByte b).1 ++ decodeFrom (firstByte b).2 rest
  | some s, b :: rest => (nextByte s b).1 ++ decodeFrom (nextByte s b).2 rest

def decodeBytes (bytes : List Nat) : List Char := decodeFrom none bytes

end MarketMaker.Text
