import MarketMaker.Pool.Basic
import MarketMaker.Table

namespace MarketMaker

abbrev Registry := Table String Pool

namespace Registry

def defaultLimit : Int := 10

def maxLimit : Int := 100

def get (r : Registry) (identifier : String) : Result Pool :=
  match r.get? identifier with
  | some pool => .ok pool
  | none => fail (.unExistingPool identifier)

def save (r : Registry) (pool : Pool) : Registry := r.put pool.identifier pool

def ofPools (pools : List Pool) : Registry := pools.foldl save Table.empty

/-- The first items of a list; a negative count leaves out as many at the end. -/
def cut {α : Type} (count : Int) (items : List α) : List α :=
  if 0 ≤ count then items.take count.toNat else items.take (items.length - (-count).toNat)

def identifiersAfter (r : Registry) (start : Option String) : List String :=
  (r.keys.mergeSort fun a b => decide (a ≤ b)).filter fun i =>
    match start with
    | none => true
    | some s => decide (s < i)

/-- A page of at most 100 pools, ascending by identifier. -/
def page (r : Registry) (start : Option String) (limit : Option Int) : List Pool :=
  (cut (min (limit.getD defaultLimit) maxLimit) (r.identifiersAfter start)).filterMap r.get?

theorem get_eq_ok_iff {r : Registry} {identifier : String} {pool : Pool} :
    r.get identifier = .ok pool ↔ r.get? identifier = some pool := by
  unfold get
  split <;> simp_all [fail]

end Registry

end MarketMaker
