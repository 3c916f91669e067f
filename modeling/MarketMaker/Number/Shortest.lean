import MarketMaker.Number.Decimal

/-! The text of a binary number: the fewest decimal digits that read back to it, of those the
nearest ones. Leading exponents from -4 to 15 are written positionally, with a zero after the point
where nothing else stands there; the others with a signed exponent of two digits at least. -/

namespace MarketMaker

namespace Binary

structure Quotient where
  num : Nat
  den : Nat

/-- The value of a number and the two ends of the interval that rounds to it, in quarters of its
last place. The lower end is nearer where the exponent changes. -/
def quarters (mantissa : Nat) (exponent : Int) : Nat × Nat × Nat :=
  let below := if mantissa = leastFull ∧ leastExponent < exponent then 1 else 2
  (4 * mantissa, 4 * mantissa - below, 4 * mantissa + 2)

def overTen (quarterCount : Nat) (exponent tens : Int) : Quotient :=
  let binary := scaleBy 2 quarterCount 1 (2 - exponent)
  let decimal := scaleBy 10 binary.1 binary.2 tens
  ⟨decimal.1, decimal.2⟩

/-- Whether the decimal `digits * 10 ^ tens` reads back to a number. The ends of the interval do
when the mantissa is even. -/
def readsBack (mantissa : Nat) (exponent : Int) (digits : Nat) (tens : Int) : Bool :=
  let (_, low, high) := quarters mantissa exponent
  let low := overTen low exponent tens
  let high := overTen high exponent tens
  if mantissa % 2 = 0 then low.num ≤ digits * low.den && digits * high.den ≤ high.num
  else low.num < digits * low.den && digits * high.den < high.num

def leadingExponent (q : Quotient) : Int :=
  let size (n : Nat) : Int := (Nat.toDigits 10 n).length
  let guess := size q.num - size q.den
  let scaled := scaleBy 10 q.num q.den guess
  if scaled.2 ≤ scaled.1 then guess else guess - 1

/-- The digits on one decimal grid that read back, the nearest first. -/
def onGrid? (mantissa : Nat) (exponent tens : Int) : Option Nat :=
  let q := overTen (quarters mantissa exponent).1 exponent tens
  [roundHalfEven q.num q.den, q.num / q.den, q.num / q.den + 1].find? fun digits =>
    readsBack mantissa exponent digits tens

/-- The fewest digits that read back, and the power of ten that they count. Seventeen digits always
do. -/
def shortest (mantissa : Nat) (exponent : Int) : Nat × Int :=
  let first := leadingExponent (overTen (4 * mantissa) exponent 0)
  let grids := (List.range 17).map fun (n : Nat) => first - (n : Int)
  let found := grids.findSome? fun tens =>
    (onGrid? mantissa exponent tens).map fun digits => (digits, tens)
  found.getD (0, 0)

def significant (digits : Nat) : List Char :=
  ((Nat.toDigits 10 digits).reverse.dropWhile (· = '0')).reverse

def zeros (n : Int) : List Char := List.replicate n.toNat '0'

def positional (digits : List Char) (first : Int) : List Char :=
  if first < 0 then '0' :: '.' :: zeros (-first - 1) ++ digits
  else
    let whole := (first + 1).toNat
    let fraction := digits.drop whole
    digits.take whole ++ zeros (first + 1 - digits.length) ++ '.' ::
      (if fraction.isEmpty then ['0'] else fraction)

def scientific (digits : List Char) (first : Int) : List Char :=
  let size := Nat.toDigits 10 first.natAbs
  digits.take 1 ++ (if digits.length ≤ 1 then [] else '.' :: digits.drop 1) ++
    ['e', if first < 0 then '-' else '+'] ++ zeros (2 - size.length) ++ size

def magnitudeText (mantissa : Nat) (exponent : Int) : String :=
  if mantissa = 0 then "0.0"
  else
    let (digits, tens) := shortest mantissa exponent
    let first := tens + (Nat.toDigits 10 digits).length - 1
    String.ofList <|
      if -4 ≤ first ∧ first < 16 then positional (significant digits) first
      else scientific (significant digits) first

def text (x : Binary) : String :=
  (if x.mantissa < 0 then "-" else "") ++ magnitudeText x.mantissa.natAbs x.exponent

def infinityText (negative : Bool) : String := if negative then "-inf" else "inf"

def undefinedText : String := "nan"

end Binary

/-- The text of the binary number that a decimal one stands for; a zero keeps its sign. -/
def Decimal.text : Decimal → String
  | x@(.finite negative _ _) =>
    match x.nearest? with
    | some b => (if negative then "-" else "") ++ Binary.magnitudeText b.mantissa.natAbs b.exponent
    | none => Binary.infinityText negative
  | .infinite negative => Binary.infinityText negative
  | .undefined => Binary.undefinedText

end MarketMaker
