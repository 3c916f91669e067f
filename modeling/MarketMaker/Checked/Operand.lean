import MarketMaker.Fault.Failure
import MarketMaker.Number.Extended

/-! Operands of checked integers. An operand may be a value of any type: truth values count as 0 and
1, a number with a point stands for the nearest binary number, and the rest are no numbers. Sums and
differences of integers are exact; with a binary number they are binary, and then the integers must
be in its range. -/

namespace MarketMaker.Checked

/-- A number that an operand stands for or an operation gives. -/
inductive Amount
  | whole (n : Int)
  | binary (x : Extended)

namespace Amount

def text : Amount → String
  | whole n => toString n
  | binary x => x.text

def isWritable : Amount → Bool
  | whole n => Text.isWritable n
  | binary _ => true

def compareInt (n : Int) : Amount → Option Ordering
  | whole m => some (compare n m)
  | binary x => x.compareInt n

/-- The nearest binary number; an integer must be in range. -/
def toBinary : Amount → Result Extended
  | whole n =>
    match Binary.ofInt? n with
    | some x => .ok (.finite x)
    | none => .error (.number .integerTooLarge)
  | binary x => .ok x

/-- The number as a checked integer, which no binary number is. -/
def checked : Amount → Result Int
  | whole n => .ok n
  | binary _ => .error (.type (.integerRequired "float"))

/-- Joins two numbers; in binary where one of them is. -/
def combine (onIntegers : Int → Int → Int) (onBinary : Extended → Extended → Extended) :
    Amount → Amount → Result Amount
  | whole m, whole n => .ok (whole (onIntegers m n))
  | x, y => do .ok (binary (onBinary (← x.toBinary) (← y.toBinary)))

def sum : Amount → Amount → Result Amount := combine (· + ·) .add

def difference : Amount → Amount → Result Amount := combine (· - ·) .sub

def toInteger (onIntegers : Int → Int → Int) (x y : Amount) : Result Int := do
  (← combine onIntegers (fun _ y => y) x y).checked

end Amount

inductive Operand
  | plain (n : Int)
  | checked (n : Int)
  | raw (v : Json)

namespace Operand

def value : Operand → Json
  | plain n => .int n
  | checked n => .int n
  | raw v => v

/-- The integer that an operand counts as. -/
def int? (x : Operand) : Option Int :=
  match x.value with
  | .int n => some n
  | .bool b => some (if b then 1 else 0)
  | _ => none

def amount? (x : Operand) : Option Amount :=
  match x.value with
  | .decimal d => some (.binary d.extended)
  | _ => x.int?.map .whole

def amount (x : Operand) : Result Amount :=
  match x.amount? with
  | some n => .ok n
  | none => .error (.type .unsupportedOperands)

def isZero (x : Operand) : Bool :=
  match x.amount? with
  | some (.whole n) => n = 0
  | some (.binary y) => y.isZero
  | none => false

def isText (x : Operand) : Bool :=
  match x.value with
  | .text _ | .brokenText _ => true
  | _ => false

/-- The count of characters of a text or of items of a list, which can be repeated. -/
def size? (x : Operand) : Option Nat :=
  match x.value with
  | .text s => some s.length
  | .brokenText t => some t.codes.length
  | .list items => some items.length
  | _ => none

def text (x : Operand) : String :=
  match x.value with
  | .bool b => if b then "True" else "False"
  | .int n => toString n
  | .decimal d => d.text
  | _ => ""

end Operand

end MarketMaker.Checked
