/-! Operations on numbers that give no number: powers of zero, results beyond the largest binary
number, texts and lists repeated too often. -/

namespace MarketMaker

inductive NumberFault
  | zeroToNegativePower
  /-- An integer beyond the largest binary number. -/
  | integerTooLarge
  | powerTooLarge
  | complexPowerTooLarge
  /-- A count of repetitions that does not fit 64 bits. -/
  | countTooLarge
  | textTooLong
  | memoryExhausted
  deriving DecidableEq, Repr

namespace NumberFault

def message : NumberFault → String
  | zeroToNegativePower => "0.0 cannot be raised to a negative power"
  | integerTooLarge => "int too large to convert to float"
  | powerTooLarge => "(34, 'Numerical result out of range')"
  | complexPowerTooLarge => "complex exponentiation"
  | countTooLarge => "cannot fit 'int' into an index-sized integer"
  | textTooLong => "repeated string is too long"
  | memoryExhausted => ""

end NumberFault

end MarketMaker
