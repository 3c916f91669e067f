import MarketMaker.StableSwap.Invariant

/-! The balance that keeps the invariant when the other one moves: with `x` the moved balance,
`c = D ^ (k + 1) / (n ^ k * x * Ann)` and `b = x + D / Ann`, it is the limit of
`y := (y ^ 2 + c) / (2 * y + b - D)` from `y = D`. -/

namespace MarketMaker.StableSwap

/-- Which balance moves by the amount: the offered one grows, or the asked one shrinks. -/
inductive Direction
  | forward
  | backward
  deriving DecidableEq, Repr

namespace Direction

def name : Direction → String
  | forward => "simulate"
  | backward => "reverse_simulate"

def ofName (text : String) : Except ValueFault Direction :=
  if text = forward.name then .ok forward
  else if text = backward.name then .ok backward
  else .error (.unknownDirection text)

end Direction

def moved (offer ask amount : Int) : Direction → Result Int
  | .forward => .ok (offer + amount)
  | .backward => if ask ≤ amount then fail (.askDrained amount ask) else .ok (ask - amount)

def balanceStep (c b d y : Int) : Result Int :=
  let denominator := 2 * y + b - d
  if denominator ≤ 0 then fail .balanceDenominator
  else .ok ((y * y + c).fdiv denominator)

def balanceFrom (solver : Solver) (c b d : Int) : Nat → Int → Result Int
  | 0, _ => fail (.balanceUnsettled solver.maxIterations)
  | fuel + 1, y => do
    let next ← balanceStep c b d y
    if Checked.absDiff next y ≤ solver.tolerance then .ok next
    else balanceFrom solver c b d fuel next

/-- The balance on the other side of the one that moves. -/
def counterBalance (solver : Solver) (n offer ask amount amp : Int) (direction : Direction) :
    Result Int := do
  let d ← pairInvariant solver amp n offer ask
  let x ← moved offer ask amount direction
  let ann ← ann amp n
  let c ← Checked.div (d * d) (x * n)
  let c ← Checked.div (c * d) (ann * n)
  let e ← Checked.div d ann
  balanceFrom solver c (x + e) d solver.maxIterations.toNat d

end MarketMaker.StableSwap
