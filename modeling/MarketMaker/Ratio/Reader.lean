import MarketMaker.Fault.Failure
import MarketMaker.Json.Basic
import MarketMaker.Text.Blank

/-! Reading ratios. A decimal text is digits with at most one point, at least one digit after a
point, and at most 18 of them; blanks around it do not count. -/

namespace MarketMaker.Ratio

/-- The parts of a text around its first point; nothing for the second when there is no point. -/
def split (s : List Char) : List Char × Option (List Char) :=
  match s.dropWhile (· ≠ '.') with
  | [] => (s, none)
  | _ :: fraction => (s.takeWhile (· ≠ '.'), some fraction)

def allDigits (s : List Char) : Bool :=
  s ≠ [] && s.all Text.isDigit

def padRight (width : Nat) (s : List Char) : List Char :=
  s ++ List.replicate (width - s.length) '0'

def readDigits (s : List Char) : Except ValueFault Nat :=
  match Text.readNatural s with
  | .ok n => .ok n
  | .error e => .error (.ofNumeral (String.ofList s) e)

def orZero (s : List Char) : List Char :=
  if s = [] then ['0'] else s

def ofText (text : String) : Except ValueFault Ratio :=
  let parts := split (Text.trim Text.isBlank text.toList)
  let fraction := parts.2.getD []
  if parts.1 = [] && fraction = [] then .error (.invalidDecimal text)
  else if !allDigits (orZero parts.1) || (parts.2.isSome && !allDigits fraction) then
    .error (.invalidDecimal text)
  else if places < fraction.length then .error (.fractionTooLong text)
  else
    match readDigits (orZero parts.1) with
    | .error e => .error e
    | .ok whole =>
      match readDigits (padRight places fraction) with
      | .error e => .error e
      | .ok part => .ok ⟨whole * unit + part⟩

def ofAtomics (n : Int) : Except ValueFault Ratio :=
  if n < 0 then .error (.negativeRatio n) else .ok ⟨n.toNat⟩

def ofInt (n : Int) : Except ValueFault Ratio := ofAtomics (n * unit)

/-- A ratio from a decimal text or a whole number. Decimals are refused, since they have lost
precision already. -/
def ofJson : Json → Except ValueFault Ratio
  | .text s => ofText s
  | .brokenText t => .error (.invalidDecimal t)
  | .int n => ofInt n
  | v => .error (.ratioType v.typeName)

def ofRaw : Json → Result Ratio
  | .int n => (ofAtomics n).mapError .value
  | v => .error (.type (.atomicsRequired v.typeName))

end MarketMaker.Ratio
