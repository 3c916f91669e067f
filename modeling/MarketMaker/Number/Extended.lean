import MarketMaker.Number.Shortest

/-! Binary numbers with the two infinities, and the undefined result of operations that have none. A
sum beyond the largest number is infinite; nothing compares with what is undefined. -/

namespace MarketMaker

inductive Extended
  | finite (x : Binary)
  | infinite (negative : Bool)
  | undefined
  deriving DecidableEq, Repr

namespace Extended

def finite? : Extended → Option Binary
  | finite x => some x
  | _ => none

def neg : Extended → Extended
  | finite x => finite x.neg
  | infinite negative => infinite (!negative)
  | undefined => undefined

/-- A rounded magnitude with its sign. -/
def ofRounded (negative : Bool) : Option Binary → Extended
  | some x => finite x
  | none => infinite negative

def add : Extended → Extended → Extended
  | finite x, finite y => ofRounded (x.mantissa < 0) (x.add? y)
  | finite _, infinite negative => infinite negative
  | infinite negative, finite _ => infinite negative
  | infinite p, infinite q => if p = q then infinite p else undefined
  | undefined, _ => undefined
  | _, undefined => undefined

def sub (x y : Extended) : Extended := x.add y.neg

def compareInt (n : Int) : Extended → Option Ordering
  | finite x => some (Binary.compareInt n x)
  | infinite negative => some (if negative then .gt else .lt)
  | undefined => none

def isZero : Extended → Bool
  | finite x => x.mantissa = 0
  | _ => false

def text : Extended → String
  | finite x => x.text
  | infinite negative => Binary.infinityText negative
  | undefined => Binary.undefinedText

end Extended

def Decimal.extended : Decimal → Extended
  | x@(.finite negative _ _) => .ofRounded negative x.nearest?
  | .infinite negative => .infinite negative
  | .undefined => .undefined

end MarketMaker
