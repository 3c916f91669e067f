import MarketMaker.Number.Sum
import MarketMaker.Ratio.Basic

/-! Fee schedules. Each fee is a share of the gross return of a swap, rounded down for itself. -/

namespace MarketMaker

/-- The swap fee stays in the pool, the burn fee is burned, and the rest goes to the collector. -/
structure FeeSchedule where
  swap : Ratio := .zero
  protocol : Ratio := .zero
  burn : Ratio := .zero
  extra : List Ratio := []
  deriving DecidableEq, Repr

structure Charges where
  swap : Int
  protocol : Int
  burn : Int
  extra : Int
  deriving DecidableEq, Repr

namespace Charges

def total (c : Charges) : Int := c.swap + c.protocol + c.burn + c.extra

/-- The part that leaves the pool. -/
def outgoing (c : Charges) : Int := c.protocol + c.burn + c.extra

/-- The part that the collector gets. -/
def collected (c : Charges) : Int := c.protocol + c.extra

theorem total_eq_swap_add_outgoing (c : Charges) : c.total = c.swap + c.outgoing := by
  simp only [total, outgoing]; omega

theorem outgoing_eq_collected_add_burn (c : Charges) : c.outgoing = c.collected + c.burn := by
  simp only [outgoing, collected]; omega

end Charges

namespace FeeSchedule

def total (fees : FeeSchedule) : Ratio :=
  fees.extra.foldl Ratio.add ((fees.swap.add fees.protocol).add fees.burn)

/-- The shares together are below one. -/
def Valid (fees : FeeSchedule) : Prop := fees.total < .one

instance (fees : FeeSchedule) : Decidable fees.Valid :=
  inferInstanceAs (Decidable (fees.total < .one))

/-- The fees on an amount, each rounded down. -/
def charge (fees : FeeSchedule) (amount : Int) : Charges where
  swap := fees.swap.mulFloor amount
  protocol := fees.protocol.mulFloor amount
  burn := fees.burn.mulFloor amount
  extra := sumOf (fees.extra.map fun share => share.mulFloor amount)

end FeeSchedule

end MarketMaker
