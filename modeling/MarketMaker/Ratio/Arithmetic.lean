import MarketMaker.Checked.Basic

namespace MarketMaker.Ratio

def sub (a b : Ratio) : Result Ratio :=
  if a < b then fail (.ratioSubtraction a b) else .ok ⟨a.atomics - b.atomics⟩

def complement (a : Ratio) : Result Ratio := sub one a

def divCeil (r : Ratio) (amount : Int) : Result Int :=
  if r.atomics = 0 then fail (.ratioDivision amount)
  else .ok (Checked.ceilQuotient (amount * unit) r.atomics)

def divFloor (r : Ratio) (amount : Int) : Result Int :=
  if r.atomics = 0 then fail (.ratioDivision amount)
  else .ok ((amount * unit).fdiv r.atomics)

theorem complement_eq_ok_iff {a b : Ratio} :
    complement a = .ok b ↔ a.atomics + b.atomics = unit := by
  unfold complement sub
  split <;> rename_i h
  · simp only [fail, reduceCtorEq, false_iff]
    simp only [lt_def, one] at h
    omega
  · simp only [Except.ok.injEq, ext_iff]
    simp only [lt_def, one] at h ⊢
    omega

end MarketMaker.Ratio
