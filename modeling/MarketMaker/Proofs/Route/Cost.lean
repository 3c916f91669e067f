import MarketMaker.Proofs.Aggregate
import MarketMaker.Proofs.Route

/-! # Costs of routes

A route gathers its costs hop by hop, each kind in a list of its own. What it has gathered so far
only stands in front of what is to come, so the costs of its parts can be put together later. -/

namespace MarketMaker

/-- What a swap costs beside what it returns: the spread and the fees of each kind. -/
inductive Cost
  | spread
  | swapFee
  | protocolFee
  | burnFee
  | extraFees
  deriving DecidableEq, Repr

namespace Cost

def inQuote (q : SwapQuote) : Cost → Int
  | spread => q.spread
  | swapFee => q.charges.swap
  | protocolFee => q.charges.protocol
  | burnFee => q.charges.burn
  | extraFees => q.charges.extra

def inRoute (costs : RouteCosts) : Cost → List Coin
  | spread => costs.spreads
  | swapFee => costs.swapFees
  | protocolFee => costs.protocolFees
  | burnFee => costs.burnFees
  | extraFees => costs.extraFees

theorem inQuote_nonneg {q : SwapQuote} (h : q.Fits) (cost : Cost) : 0 ≤ cost.inQuote q := by
  cases cost with
  | spread => exact h.spread.1
  | swapFee => exact h.charges.swap.1
  | protocolFee => exact h.charges.protocol.1
  | burnFee => exact h.charges.burn.1
  | extraFees => exact h.charges.extra.1

theorem inRoute_record (costs : RouteCosts) (denom : String) (q : SwapQuote) (cost : Cost) :
    cost.inRoute (costs.record denom q.spread q.charges) =
      RouteCosts.note (cost.inRoute costs) denom (cost.inQuote q) := by
  cases cost <;> rfl

theorem aggregate_inRoute {costs out : RouteCosts} (h : costs.aggregate = .ok out) (cost : Cost) :
    Coin.aggregate (cost.inRoute costs) = .ok (cost.inRoute out) := by
  simp only [RouteCosts.aggregate, Result.bind_eq_ok, Except.ok.injEq] at h
  obtain ⟨_, hspreads, _, hswap, _, hprotocol, _, hburn, _, hextra, rfl⟩ := h
  cases cost <;> assumption

end Cost

namespace RouteCosts

variable {costs more out : RouteCosts}

/-- An amount that is noted counts, also where it is zero and so left out. -/
theorem total_note {coins : List Coin} {denom : String} {amount : Int} (h : 0 ≤ amount)
    (d : String) : Coin.total d (note coins denom amount) =
      Coin.total d coins + Coin.total d [⟨denom, amount⟩] := by
  unfold note
  split
  · exact Coin.total_append d _ _
  · obtain rfl : amount = 0 := by omega
    simp [Coin.total_singleton]

theorem note_append (coins more : List Coin) (denom : String) (amount : Int) :
    note (coins ++ more) denom amount = coins ++ note more denom amount := by
  unfold note
  split
  · exact List.append_assoc _ _ _
  · rfl

theorem pos_of_mem_note {coins : List Coin} {denom : String} {amount : Int}
    (h : ∀ c ∈ coins, 0 < c.amount) : ∀ c ∈ note coins denom amount, 0 < c.amount := by
  unfold note
  split
  · rename_i hpos
    exact List.forall_mem_append.2 ⟨h, List.forall_mem_singleton.2 hpos⟩
  · exact h

/-! ## One after the other -/

def append (costs more : RouteCosts) : RouteCosts where
  spreads := costs.spreads ++ more.spreads
  swapFees := costs.swapFees ++ more.swapFees
  protocolFees := costs.protocolFees ++ more.protocolFees
  burnFees := costs.burnFees ++ more.burnFees
  extraFees := costs.extraFees ++ more.extraFees

instance : Append RouteCosts := ⟨append⟩

theorem inRoute_append (costs more : RouteCosts) (cost : Cost) :
    cost.inRoute (costs ++ more) = cost.inRoute costs ++ cost.inRoute more := by
  cases cost <;> rfl

theorem eq_of_inRoute (h : ∀ cost : Cost, cost.inRoute costs = cost.inRoute more) :
    costs = more := by
  cases costs
  cases more
  rw [mk.injEq]
  exact ⟨h .spread, h .swapFee, h .protocolFee, h .burnFee, h .extraFees⟩

theorem append_empty (costs : RouteCosts) : costs ++ ({} : RouteCosts) = costs :=
  eq_of_inRoute fun cost => by
    rw [inRoute_append]
    cases cost <;> exact List.append_nil _

/-- What has been gathered so far stands in front of what is recorded. -/
theorem record_append (costs more : RouteCosts) (denom : String) (spread : Int)
    (charges : Charges) :
    (costs ++ more).record denom spread charges = costs ++ more.record denom spread charges :=
  eq_of_inRoute fun cost => by
    rw [inRoute_append]
    cases cost <;> exact note_append _ _ _ _

/-! ## Costs above zero -/

def Positive (costs : RouteCosts) : Prop := ∀ cost : Cost, ∀ c ∈ cost.inRoute costs, 0 < c.amount

theorem Positive.nonneg (h : costs.Positive) (cost : Cost) :
    ∀ c ∈ cost.inRoute costs, 0 ≤ c.amount :=
  fun c hc => Int.le_of_lt (h cost c hc)

theorem positive_empty : Positive {} := by
  intro cost c hc
  cases cost <;> cases hc

theorem Positive.record (h : costs.Positive) (denom : String) (spread : Int) (charges : Charges) :
    (costs.record denom spread charges).Positive := by
  intro cost
  cases cost with
  | spread => exact pos_of_mem_note (h .spread)
  | swapFee => exact pos_of_mem_note (h .swapFee)
  | protocolFee => exact pos_of_mem_note (h .protocolFee)
  | burnFee => exact pos_of_mem_note (h .burnFee)
  | extraFees => exact pos_of_mem_note (h .extraFees)

/-! ## Aggregation -/

theorem aggregate_eq_ok_iff : costs.aggregate = .ok out ↔
    ∀ cost : Cost, Coin.aggregate (cost.inRoute costs) = .ok (cost.inRoute out) := by
  refine ⟨Cost.aggregate_inRoute, fun h => ?_⟩
  simp only [RouteCosts.aggregate, Result.bind_eq_ok, Except.ok.injEq]
  exact ⟨_, h .spread, _, h .swapFee, _, h .protocolFee, _, h .burnFee, _, h .extraFees, rfl⟩

theorem exists_aggregate_of_forall
    (h : ∀ cost : Cost, ∃ coins, Coin.aggregate (cost.inRoute costs) = .ok coins) :
    ∃ out, costs.aggregate = .ok out := by
  choose coins hcoins using h
  refine ⟨⟨coins .spread, coins .swapFee, coins .protocolFee, coins .burnFee, coins .extraFees⟩,
    aggregate_eq_ok_iff.2 fun cost => ?_⟩
  cases cost <;> exact hcoins _

/-- Costs can be aggregated unless there is too much of one kind in one denom. -/
theorem exists_aggregate_iff (h : costs.Positive) : (∃ out, costs.aggregate = .ok out) ↔
    ∀ (cost : Cost) (denom : String), Coin.total denom (cost.inRoute costs) ≤ maxAmount := by
  constructor
  · rintro ⟨out, hout⟩ cost
    exact (Coin.exists_aggregate_iff (h.nonneg cost)).1 ⟨_, aggregate_eq_ok_iff.1 hout cost⟩
  · intro hroom
    exact exists_aggregate_of_forall fun cost =>
      (Coin.exists_aggregate_iff (h.nonneg cost)).2 (hroom cost)

theorem Positive.aggregate (h : costs.Positive) (hout : costs.aggregate = .ok out) :
    out.Positive :=
  fun cost => (Coin.gathered_of_aggregate (aggregate_eq_ok_iff.1 hout cost)).pos (h cost)

theorem Positive.append (h : costs.Positive) (hmore : more.Positive) :
    (costs ++ more).Positive := by
  intro cost
  rw [inRoute_append]
  exact List.forall_mem_append.2 ⟨h cost, hmore cost⟩

/-- It is the same to aggregate parts first. -/
theorem aggregate_append_eq_ok_iff (h : costs.Positive) (hmore : more.Positive) :
    (costs ++ more).aggregate = .ok out ↔ ∃ a b, costs.aggregate = .ok a ∧
      more.aggregate = .ok b ∧ (a ++ b).aggregate = .ok out := by
  have hcost (cost : Cost) : Coin.aggregate (cost.inRoute costs ++ cost.inRoute more) =
      .ok (cost.inRoute out) ↔ ∃ a b, Coin.aggregate (cost.inRoute costs) = .ok a ∧
        Coin.aggregate (cost.inRoute more) = .ok b ∧
          Coin.aggregate (a ++ b) = .ok (cost.inRoute out) :=
    Coin.aggregate_append_eq_ok_iff (h.nonneg cost) (hmore.nonneg cost)
  have hboth (first second : RouteCosts) : (first ++ second).aggregate = .ok out ↔
      ∀ cost : Cost, Coin.aggregate (cost.inRoute first ++ cost.inRoute second) =
        .ok (cost.inRoute out) := by
    simp only [aggregate_eq_ok_iff, inRoute_append]
  simp only [hboth]
  constructor
  · intro hout
    obtain ⟨a, ha⟩ := exists_aggregate_of_forall fun cost =>
      let ⟨a, _, ha, _⟩ := (hcost cost).1 (hout cost)
      ⟨a, ha⟩
    obtain ⟨b, hb⟩ := exists_aggregate_of_forall fun cost =>
      let ⟨_, b, _, hb, _⟩ := (hcost cost).1 (hout cost)
      ⟨b, hb⟩
    refine ⟨a, b, ha, hb, fun cost => ?_⟩
    obtain ⟨a', b', ha', hb', hboth⟩ := (hcost cost).1 (hout cost)
    cases (aggregate_eq_ok_iff.1 ha cost).symm.trans ha'
    cases (aggregate_eq_ok_iff.1 hb cost).symm.trans hb'
    exact hboth
  · rintro ⟨a, b, ha, hb, hboth⟩ cost
    exact (hcost cost).2
      ⟨_, _, aggregate_eq_ok_iff.1 ha cost, aggregate_eq_ok_iff.1 hb cost, hboth cost⟩

end RouteCosts

end MarketMaker
