import MarketMaker.Quote.Curve
import MarketMaker.Share.Mint
import MarketMaker.Share.Slippage

/-! Prices and shares for a curve that a caller chose, which may be no curve at all. -/

namespace MarketMaker

inductive CurveChoice
  | known (curve : Curve)
  /-- A value of another type. -/
  | unknown (typeName : String)
  deriving DecidableEq, Repr

namespace CurveChoice

def get : CurveChoice → Result Curve
  | known curve => .ok curve
  | unknown typeName => .error (.type (.unsupportedCurve typeName))

def quote (choice : CurveChoice) (m : Market) (solver : Solver) (amount : Int) :
    Result SwapQuote := do
  let curve ← choice.get
  m.quote solver amount curve

def initialShare (choice : CurveChoice) (solver : Solver) (deposits : List Int) : Result Int := do
  let curve ← choice.get
  Share.initial solver deposits curve

/-- The curve is looked at only when there is something to guard. -/
def checkSlippage (choice : CurveChoice) (tolerance : Option Ratio) (terms : Share.DepositTerms) :
    Result Unit := do
  match ← Share.keep? tolerance terms.supply with
  | none => .ok ()
  | some keep => do
    let curve ← choice.get
    Share.checkKept keep terms curve

end CurveChoice

end MarketMaker
