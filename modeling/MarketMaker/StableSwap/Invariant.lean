import MarketMaker.Checked.Basic
import MarketMaker.Number.Sum

/-! The stableswap invariant `D`: the root of `Ann * S + D = Ann * D + D ^ (n + 1) / (n ^ n * P)`,
where `S` is the sum and `P` the product of the balances and `Ann = amp * n ^ n`. It is found by
Newton's iteration in integers, every quotient rounded down. -/

namespace MarketMaker

structure Solver where
  maxIterations : Int := 64
  /-- The largest difference between two iterates that counts as settled. -/
  tolerance : Int := 1
  deriving DecidableEq, Repr

namespace StableSwap

def ann (amp n : Int) : Result Int := (Checked.power n n).map (amp * ·)

/-- The term `D ^ (k + 1) / (n ^ k * P)`, with one division for each of the `k` balances. -/
def productTerm (n d : Int) (balances : List Int) : Result Int :=
  balances.foldlM (fun term x => Checked.div (term * d) (x * n)) d

def invariantStep (amp ann n : Int) (balances : List Int) (d : Int) : Result Int := do
  let term ← productTerm n d balances
  let numerator := (ann * sumOf balances + term * n) * d
  let denominator := (ann - 1) * d + (n + 1) * term
  if denominator ≤ 0 then fail (.invariantDiverged amp) else .ok (numerator.fdiv denominator)

/-- Iterates at most the given number of times, until two iterates are close. -/
def invariantFrom (solver : Solver) (amp ann n : Int) (balances : List Int) : Nat → Int → Result Int
  | 0, _ => fail (.invariantUnsettled solver.maxIterations)
  | fuel + 1, d => do
    let next ← invariantStep amp ann n balances d
    if Checked.absDiff next d ≤ solver.tolerance then .ok next
    else invariantFrom solver amp ann n balances fuel next

/-- The invariant of balances in a pool of `n` assets, iterated from their sum. -/
def invariantOf (solver : Solver) (amp n : Int) (balances : List Int) : Result Int :=
  if sumOf balances = 0 then .ok 0
  else do
    let ann ← ann amp n
    invariantFrom solver amp ann n balances solver.maxIterations.toNat (sumOf balances)

def invariant (solver : Solver) (amp : Int) (balances : List Int) : Result Int :=
  invariantOf solver amp balances.length balances

/-- The invariant of the two balances that a swap trades. -/
def pairInvariant (solver : Solver) (amp n offer ask : Int) : Result Int :=
  invariantOf solver amp n [offer, ask]

end StableSwap

end MarketMaker
