import MarketMaker.Checked.Basic
import MarketMaker.Checked.Operand

/-! A checked integer that steps are applied to. A step that gives a checked integer replaces the
accumulator; comparisons and conversions leave it. A result that is no integer makes the step fail.
-/

namespace MarketMaker.Checked

structure Outcome where
  answer : Json
  accumulator : Int

def ofValue : Json → Result Int
  | .int n => .ok n
  | v => .error (.type (.integerRequired v.typeName))

/-! ### Sums and differences -/

def increase (a : Int) (x : Operand) : Result Int := do
  Amount.toInteger (· + ·) (.whole a) (← x.amount)

/-- A fault whose text holds numbers, if all of them can be written. -/
def failWith (numbers : List Amount) (kind : FaultKind) (text : String) : Result Int :=
  if numbers.all Amount.isWritable then fail (.stated kind text)
  else .error (.value .unwritable)

/-- The difference of two operands, worded with the operands as given. -/
def subtract (a b : Operand) : Result Int := do
  let x ← a.amount
  let y ← b.amount
  let d ← Amount.difference x y
  if d.compareInt 0 = some .gt then
    failWith [x, y, d] .underflow s!"Underflow: {a.text} - {b.text} = {d.text}"
  else d.checked

def subtractFloor (a : Int) (x : Operand) : Result Int := do
  let d ← Amount.difference (.whole a) (← x.amount)
  if d.compareInt 0 = some .lt then d.checked else .ok 0

def distance (a : Int) (x : Operand) : Result Int := do
  Amount.toInteger absDiff (.whole a) (← x.amount)

def addAmount (a : Int) (x : Operand) : Result Int := do
  let y ← x.amount
  let s ← Amount.sum (.whole a) y
  if s.compareInt maxAmount = some .lt then
    failWith [.whole a, y] .overflow s!"Overflow: {a} + {x.text} exceeds Uint128"
  else s.checked

/-! ### Products and quotients -/

/-- The counts of repetitions that fit 64 bits. -/
def fitsCount (n : Int) : Bool := -9223372036854775808 ≤ n && n ≤ 9223372036854775807

/-- The most items of a repeated text or list that memory holds. -/
def memoryLimit : Int := 68719476736

/-- A text or a list of the given size is repeated. That gives no integer, if there is room for it
at all. -/
def repeated (a : Int) (x : Operand) (size : Nat) : Result Int :=
  let total := size * max 0 a
  if !fitsCount a then .error (.number .countTooLarge)
  else if x.isText && !fitsCount total then .error (.number .textTooLong)
  else if memoryLimit < total then .error (.number .memoryExhausted)
  else .error (.type (.integerRequired x.value.typeName))

def multiply (a : Int) (x : Operand) : Result Int :=
  match x.size? with
  | some size => repeated a x size
  | none => do Amount.toInteger (· * ·) (.whole a) (← x.amount)

def divide (a : Int) (x : Operand) : Result Int :=
  if x.isZero then fail (.division a)
  else do Amount.toInteger Int.fdiv (.whole a) (← x.amount)

def divideCeil (a : Int) (x : Operand) : Result Int :=
  if x.isZero then fail (.ceilingDivision a)
  else do Amount.toInteger ceilQuotient (.whole a) (← x.amount)

/-! ### Powers -/

/-- How a power ends whose exponent is a finite binary number. It is no integer, and with a negative
base and a broken exponent no real number either. -/
def finitePower (a : Int) (base x : Binary) : Failure :=
  let tooLarge := Binary.powerOverflows (base.whole?.getD 0).natAbs x
  if a = 0 ∧ x.mantissa < 0 then .number .zeroToNegativePower
  else if a < 0 ∧ x.whole?.isNone then
    if tooLarge then .number .complexPowerTooLarge else .type (.integerRequired "complex")
  else if tooLarge then .number .powerTooLarge
  else .type (.integerRequired "float")

def raiseBinary (a : Int) (x : Extended) : Result Int := do
  let base ← (Amount.whole a).toBinary
  match base.finite?, x.finite? with
  | some base, some x => .error (finitePower a base x)
  | _, _ => .error (.type (.integerRequired "float"))

/-- A power; a checked integer is no exponent. -/
def raise (a : Int) : Operand → Result Int
  | .checked _ => .error (.type .unsupportedOperands)
  | x => do
    match ← x.amount with
    | .whole n => power a n
    | .binary y => raiseBinary a y

/-! ### Comparisons -/

def compareWith (a : Int) (x : Operand) : Result (Option Ordering) :=
  x.amount.map fun n => n.compareInt a

/-- The modulus of `hashCode`, the prime `2 ^ 61 - 1`. -/
def hashModulus : Nat := 2305843009213693951

/-- The hash of an integer: its residue with its sign, and -2 in the place of -1. -/
def hashCode (n : Int) : Int :=
  let residue : Int := n.sign * (n.natAbs % hashModulus : Nat)
  if residue = -1 then -2 else residue

/-- The hash of a binary number: two to the power of 61 counts as one, so that a number that equals
an integer has the integer's hash. -/
def binaryHashCode (x : Binary) : Int :=
  hashCode (x.mantissa * Nat.pow 2 (x.exponent % 61).toNat)

def infinityHashCode : Int := 314159

def Amount.hashCode? : Amount → Option Int
  | whole n => some (hashCode n)
  | binary (.finite x) => some (binaryHashCode x)
  | binary (.infinite negative) => some (if negative then -infinityHashCode else infinityHashCode)
  | binary .undefined => none

/-- Whether an operand has the accumulator's hash. Lists and objects have none. -/
def sameHash (a : Int) (x : Operand) : Result Bool :=
  match x.value with
  | .list _ | .object _ => .error (.type .unsupportedOperands)
  | _ => .ok (x.amount?.bind Amount.hashCode? = some (hashCode a))

/-! ### Steps -/

def written (a : Int) (text : String) : Result Json :=
  if Text.isWritable a then .ok (.text text) else .error (.value .unwritable)

def arithmetic? (a : Int) : String → List Operand → Option (Result Int)
  | "add", [x] | "radd", [x] => some (increase a x)
  | "sub", [x] => some (subtract (.plain a) x)
  | "rsub", [x] => some (subtract x (.plain a))
  | "mul", [x] | "rmul", [x] => some (multiply a x)
  | "floordiv", [x] => some (divide a x)
  | "pow", [x] => some (raise a x)
  | "ceiling_div", [x] => some (divideCeil a x)
  | "multiply_ratio", [x, y] => some (do divide (← multiply a x) y)
  | "isqrt", [] => some (sqrt a)
  | "abs_diff", [x] => some (distance a x)
  | "saturating_sub", [x] => some (subtractFloor a x)
  | "checked_add_uint128", [x] => some (addAmount a x)
  | "copy", [] => some (.ok a)
  | "set", [x] => some (ofValue x.value)
  | _, _ => none

def inspection? (a : Int) : String → List Operand → Option (Result Json)
  | "to_uint128", [] => some ((narrow a).map .int)
  | "eq", [x] => some (.ok (.bool (x.int? = some a)))
  | "lt", [x] => some ((compareWith a x).map fun o => .bool (o = some .lt))
  | "le", [x] => some ((compareWith a x).map fun o => .bool (o = some .lt ∨ o = some .eq))
  | "gt", [x] => some ((compareWith a x).map fun o => .bool (o = some .gt))
  | "ge", [x] => some ((compareWith a x).map fun o => .bool (o = some .gt ∨ o = some .eq))
  | "same_hash", [x] => some ((sameHash a x).map .bool)
  | "int", [] => some (.ok (.int a))
  | "bool", [] => some (.ok (.bool (a ≠ 0)))
  | "str", [] => some (written a (toString a))
  | "repr", [] => some (written a s!"SafeInt({a})")
  | _, _ => none

def step (a : Int) (name : String) (operands : List Operand) : Result Outcome :=
  match arithmetic? a name operands, inspection? a name operands with
  | some r, _ => r.map fun n => ⟨.int n, n⟩
  | none, some r => r.map fun v => ⟨v, a⟩
  | none, none => .error (.type .unsupportedOperands)

end MarketMaker.Checked
