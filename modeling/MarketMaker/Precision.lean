import MarketMaker.Checked.Basic

/-! Amounts at different decimal places. Going to more places is exact; going to fewer rounds down
or up. -/

namespace MarketMaker.Precision

def unitsPer (places : Nat) : Int := Int.pow 10 places

/-- The value of an amount in units of more places. -/
def raise (amount source target : Int) : Int := amount * unitsPer (target - source).toNat

/-- The value in units of fewer places, rounded down. -/
def lower (amount source target : Int) : Int := amount.fdiv (unitsPer (source - target).toNat)

def lowerCeil (amount source target : Int) : Int :=
  Checked.ceilQuotient amount (unitsPer (source - target).toNat)

/-- As `raise`, and refuses fewer places. -/
def scaleUp (amount source target : Int) : Except ValueFault Int :=
  if target < source then .error (.scaleUp source target) else .ok (raise amount source target)

def scaleDown (amount source target : Int) : Except ValueFault Int :=
  if source < target then .error (.scaleDown source target) else .ok (lower amount source target)

def scaleDownCeil (amount source target : Int) : Except ValueFault Int :=
  if source < target then .error (.scaleDown source target)
  else .ok (lowerCeil amount source target)

def common? : List Int → Option Int
  | [] => none
  | d :: rest => some (rest.foldl max d)

/-- Amounts raised to the largest of their places. -/
def normalize (amounts decimals : List Int) : Result (List Int) :=
  if amounts.length ≠ decimals.length then fail (.assetsLength decimals.length amounts.length)
  else
    match common? decimals with
    | none => .error (.value .noLargest)
    | some precision =>
      .ok (List.zipWith (fun amount places => raise amount places precision) amounts decimals)

end MarketMaker.Precision
