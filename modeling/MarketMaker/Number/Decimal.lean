import MarketMaker.Number.Binary

/-! Numbers written with a point or an exponent. They are kept as written; `Decimal.nearest?` gives
the binary number of 53 significant bits that such a number stands for. -/

namespace MarketMaker

/-- A number written with a point or an exponent, or one of the words for what is no number. -/
inductive Decimal
  | finite (negative : Bool) (digits : Nat) (exponent : Int)
  | infinite (negative : Bool)
  | undefined
  deriving DecidableEq, Repr

namespace Decimal

/-- Decimal exponents outside this range give infinity or zero. -/
def exponentLimit : Int := 400

def nearest? : Decimal → Option Binary
  | .finite negative digits exponent =>
    let size := (Nat.toDigits 10 digits).length
    if digits = 0 then some ⟨0, 0⟩
    else if exponentLimit < size + exponent then none
    else if size + exponent < -exponentLimit then some ⟨0, 0⟩
    else
      let scaled := Binary.scaleBy 10 digits 1 (-exponent)
      let magnitude := Binary.ofQuotient? scaled.1 scaled.2
      if negative then magnitude.map Binary.neg else magnitude
  | .infinite _ => none
  | .undefined => none

end Decimal

end MarketMaker
