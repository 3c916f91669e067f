import MarketMaker.Checked.Accumulator
import MarketMaker.Ratio.Arithmetic
import MarketMaker.Ratio.Reader

/-! A ratio that steps are applied to. Sums, differences and complements replace it; products,
quotients, comparisons and conversions leave it. -/

namespace MarketMaker.Ratio

inductive Source
  | text (s : String)
  /-- A decimal text or a whole number. -/
  | value (v : Json)
  /-- A count of units, of any type. -/
  | units (v : Json)
  | atomics (n : Int)
  | whole (n : Int)
  | zero
  | one

def Source.make : Source → Result Ratio
  | text s => (ofText s).mapError .value
  | value v => (ofJson v).mapError .value
  | units v => ofRaw v
  | atomics n => (ofAtomics n).mapError .value
  | whole n => (ofInt n).mapError .value
  | zero => .ok .zero
  | one => .ok .one

inductive Operand
  | ratio (source : Source)
  | amount (n : Int)
  /-- A value that is no ratio. -/
  | foreign (v : Json)

structure Outcome where
  answer : Json
  accumulator : Ratio

def arithmetic? (a : Ratio) : String → List Operand → Option (Result Ratio)
  | "add", [.ratio source] => some (source.make.map a.add)
  | "sub", [.ratio source] => some (do a.sub (← source.make))
  | "complement", [] => some a.complement
  | _, _ => none

def compareWith (a : Ratio) (source : Source) (holds : Nat → Nat → Bool) : Result Json :=
  source.make.map fun b => .bool (holds a.atomics b.atomics)

def inspection? (a : Ratio) : String → List Operand → Option (Result Json)
  | "mul_floor", [.amount n] => some (.ok (.int (a.mulFloor n)))
  | "div_ceil", [.amount n] => some ((a.divCeil n).map .int)
  | "div_floor", [.amount n] => some ((a.divFloor n).map .int)
  | "eq", [.ratio source] => some (a.compareWith source fun m n => m = n)
  | "lt", [.ratio source] => some (a.compareWith source fun m n => m < n)
  | "le", [.ratio source] => some (a.compareWith source fun m n => m ≤ n)
  | "gt", [.ratio source] => some (a.compareWith source fun m n => n < m)
  | "ge", [.ratio source] => some (a.compareWith source fun m n => n ≤ m)
  | "same_hash", [.ratio source] =>
    some (a.compareWith source fun m n => Checked.hashCode m = Checked.hashCode n)
  | "eq_raw", [.foreign _] => some (.ok (.bool false))
  | "is_zero", [] => some (.ok (.bool a.isZero))
  | "atomics", [] => some (.ok (.int a.atomics))
  | "str", [] => some (.ok (.text a.text))
  | "repr", [] => some (.ok (.text a.literal))
  | _, _ => none

/-- One step, by its name; a name that stands for no step fails. -/
def step (a : Ratio) (name : String) (operands : List Operand) : Result Outcome :=
  match a.arithmetic? name operands, a.inspection? name operands with
  | some r, _ => r.map fun b => ⟨.text b.text, b⟩
  | none, some r => r.map fun v => ⟨v, a⟩
  | none, none => .error (.type .unsupportedOperands)

end MarketMaker.Ratio
