import MarketMaker.Proofs.Route.Cost

/-! # Routes in parts

The quote of a route is made of the quotes of its parts. Forward, the second part starts from what
the first returns; backward, the first part must return what the second asks for. Their costs are
put one behind the other and aggregated once more. -/

namespace MarketMaker

/-- A quote behind costs that were gathered before. -/
def RouteQuote.after (costs : RouteCosts) (q : RouteQuote) : RouteQuote :=
  ⟨q.amount, costs ++ q.costs⟩

namespace Route

/-! ## Steps that gather costs -/

/-- A step along a route: it pays no attention to the costs so far, and lists no cost of zero. -/
structure Gathers (step : RouteQuote → Hop → Result RouteQuote) : Prop where
  after : ∀ costs q hop, step (q.after costs) hop = (step q hop).map (RouteQuote.after costs)
  positive : ∀ q hop next, step q hop = .ok next → q.costs.Positive → next.costs.Positive

/-- The quote for hops in the order in which they are stepped through. -/
def quoteBy (step : RouteQuote → Hop → Result RouteQuote) (amount : Int) (hops : List Hop) :
    Result RouteQuote :=
  hops.foldlM step ⟨amount, {}⟩ >>= finish

theorem quote_of_ne_nil {r : Registry} {solver : Solver} {hops : List Hop} (h : hops ≠ [])
    (amount : Int) : quote r solver amount hops = quoteBy (forwardHop r solver) amount hops :=
  if_neg h

theorem quoteOffer_of_ne_nil {r : Registry} {solver : Solver} {hops : List Hop} (h : hops ≠ [])
    (amount : Int) :
    quoteOffer r solver amount hops = quoteBy (backwardHop r solver) amount hops.reverse :=
  if_neg h

/-- A step gathers costs if it prices the amount alone, and records what the price says. -/
theorem gathers_of_price {α : Type} {step : RouteQuote → Hop → Result RouteQuote}
    (price : Int → Hop → Result α) (amount spread : α → Int) (charges : α → Charges)
    (h : ∀ q hop, step q hop = (price q.amount hop).map fun found =>
      ⟨amount found, q.costs.record hop.askDenom (spread found) (charges found)⟩) :
    Gathers step where
  after costs q hop := by
    rw [h, h, RouteQuote.after]
    cases price q.amount hop with
    | error e => rfl
    | ok found => simp only [Except.map, RouteQuote.after, RouteCosts.record_append]
  positive q hop next hnext hq := by
    rw [h] at hnext
    obtain ⟨found, -, rfl⟩ := Result.map_eq_ok.1 hnext
    exact hq.record _ _ _

theorem gathers_forwardHop (r : Registry) (solver : Solver) : Gathers (forwardHop r solver) := by
  refine gathers_of_price (fun amount hop => do
    let offer ← Coin.make hop.offerDenom amount
    r.quote solver offer hop.askDenom hop.pool)
    SwapQuote.returned SwapQuote.spread SwapQuote.charges fun q hop => ?_
  simp only [forwardHop, bind, Except.bind]
  cases Coin.make hop.offerDenom q.amount with
  | error e => rfl
  | ok offer => cases r.quote solver offer hop.askDenom hop.pool <;> rfl

theorem gathers_backwardHop (r : Registry) (solver : Solver) : Gathers (backwardHop r solver) := by
  refine gathers_of_price (fun amount hop => do
    let ask ← Coin.make hop.askDenom amount
    r.quoteOffer solver ask hop.offerDenom hop.pool)
    OfferQuote.offer OfferQuote.spread OfferQuote.charges fun q hop => ?_
  simp only [backwardHop, bind, Except.bind]
  cases Coin.make hop.askDenom q.amount with
  | error e => rfl
  | ok ask => cases r.quoteOffer solver ask hop.offerDenom hop.pool <;> rfl

theorem finish_eq_ok_iff {q out : RouteQuote} :
    finish q = .ok out ↔ out.amount = q.amount ∧ q.costs.aggregate = .ok out.costs := by
  simp only [finish, Result.bind_eq_ok, Except.ok.injEq]
  constructor
  · rintro ⟨costs, hcosts, rfl⟩
    exact ⟨rfl, hcosts⟩
  · rintro ⟨hamount, hcosts⟩
    obtain ⟨amount, costs⟩ := out
    subst hamount
    exact ⟨costs, hcosts, rfl⟩

/-! ## Two parts -/

/-- The quote of two parts: the amount of the second, and of each kind the costs of both. -/
structure Joins (first second q : RouteQuote) : Prop where
  amount : q.amount = second.amount
  costs : ∀ cost : Cost,
    Coin.aggregate (cost.inRoute first.costs ++ cost.inRoute second.costs) =
      .ok (cost.inRoute q.costs)
  ascending : ∀ cost : Cost, Coin.Ascending (cost.inRoute q.costs)
  positive : ∀ cost : Cost, ∀ c ∈ cost.inRoute q.costs, 0 < c.amount

/-- The costs of two parts together are amounts. -/
def RoomFor (first second : RouteQuote) : Prop := ∀ (cost : Cost) (denom : String),
  Coin.total denom (cost.inRoute first.costs) + Coin.total denom (cost.inRoute second.costs) ≤
    maxAmount

namespace Gathers

variable {step : RouteQuote → Hop → Result RouteQuote} {amount : Int} {first second : List Hop}
  {q a b : RouteQuote}

theorem foldlM_after (h : Gathers step) (costs : RouteCosts) (hops : List Hop) (q : RouteQuote) :
    hops.foldlM step (q.after costs) = (hops.foldlM step q).map (RouteQuote.after costs) := by
  induction hops generalizing q with
  | nil => rfl
  | cons hop rest ih =>
      rw [List.foldlM_cons, List.foldlM_cons, h.after]
      cases step q hop with
      | error e => rfl
      | ok next => exact ih next

theorem positive_foldlM (h : Gathers step) {hops : List Hop} {out : RouteQuote}
    (hq : q.costs.Positive) (hout : hops.foldlM step q = .ok out) : out.costs.Positive := by
  induction hops generalizing q with
  | nil =>
      cases hout
      exact hq
  | cons hop rest ih =>
      rw [List.foldlM_cons, Result.bind_eq_ok] at hout
      obtain ⟨next, hnext, hrest⟩ := hout
      exact ih (h.positive q hop next hnext hq) hrest

/-- Two parts are stepped through one behind the other, the second with costs of its own. -/
theorem foldlM_append_eq_ok_iff (h : Gathers step) {out : RouteQuote} :
    (first ++ second).foldlM step ⟨amount, {}⟩ = .ok out ↔
      ∃ a b, first.foldlM step ⟨amount, {}⟩ = .ok a ∧
        second.foldlM step ⟨a.amount, {}⟩ = .ok b ∧ out = b.after a.costs := by
  have hsecond (a : RouteQuote) : second.foldlM step a =
      (second.foldlM step ⟨a.amount, {}⟩).map (RouteQuote.after a.costs) := by
    rw [← h.foldlM_after, RouteQuote.after, RouteCosts.append_empty]
  rw [List.foldlM_append, Result.bind_eq_ok]
  constructor
  · rintro ⟨a, ha, hout⟩
    obtain ⟨b, hb, rfl⟩ := Result.map_eq_ok.1 (hsecond a ▸ hout)
    exact ⟨a, b, ha, hb, rfl⟩
  · rintro ⟨a, b, ha, hb, rfl⟩
    exact ⟨a, ha, by rw [hsecond a, hb, Except.map]⟩

theorem exists_of_quoteBy (h : Gathers step) {hops : List Hop}
    (hq : quoteBy step amount hops = .ok q) : ∃ gathered, gathered.amount = q.amount ∧
      hops.foldlM step ⟨amount, {}⟩ = .ok gathered ∧ gathered.costs.Positive ∧
        gathered.costs.aggregate = .ok q.costs := by
  obtain ⟨gathered, hfold, hfinish⟩ := Result.bind_eq_ok.1 hq
  obtain ⟨hamount, hcosts⟩ := finish_eq_ok_iff.1 hfinish
  exact ⟨gathered, hamount.symm, hfold, h.positive_foldlM RouteCosts.positive_empty hfold, hcosts⟩

/-- No cost of zero is listed, and the denoms ascend. -/
theorem listed_of_quoteBy (h : Gathers step) {hops : List Hop}
    (hq : quoteBy step amount hops = .ok q) :
    q.costs.Positive ∧ ∀ cost : Cost, Coin.Ascending (cost.inRoute q.costs) := by
  obtain ⟨gathered, -, -, hpositive, hcosts⟩ := h.exists_of_quoteBy hq
  exact ⟨hpositive.aggregate hcosts, fun cost =>
    Coin.ascending_aggregate (RouteCosts.aggregate_eq_ok_iff.1 hcosts cost)⟩

/-- Two parts are quoted together as they are one after the other. -/
theorem quoteBy_append_eq_ok_iff (h : Gathers step) :
    quoteBy step amount (first ++ second) = .ok q ↔ ∃ a b,
      quoteBy step amount first = .ok a ∧ quoteBy step a.amount second = .ok b ∧
        q.amount = b.amount ∧ (a.costs ++ b.costs).aggregate = .ok q.costs := by
  constructor
  · intro hq
    obtain ⟨gathered, hamount, hfold, -, hcosts⟩ := h.exists_of_quoteBy hq
    obtain ⟨a, b, ha, hb, rfl⟩ := h.foldlM_append_eq_ok_iff.1 hfold
    have hapos := h.positive_foldlM RouteCosts.positive_empty ha
    have hbpos := h.positive_foldlM RouteCosts.positive_empty hb
    obtain ⟨ca, cb, hca, hcb, hboth⟩ :=
      (RouteCosts.aggregate_append_eq_ok_iff hapos hbpos).1 hcosts
    exact ⟨⟨a.amount, ca⟩, ⟨b.amount, cb⟩,
      Result.bind_eq_ok.2 ⟨a, ha, finish_eq_ok_iff.2 ⟨rfl, hca⟩⟩,
      Result.bind_eq_ok.2 ⟨b, hb, finish_eq_ok_iff.2 ⟨rfl, hcb⟩⟩, hamount.symm, hboth⟩
  · rintro ⟨a, b, ha, hb, hamount, hboth⟩
    obtain ⟨ga, hga, hfirst, hapos, hca⟩ := h.exists_of_quoteBy ha
    obtain ⟨gb, hgb, hsecond, hbpos, hcb⟩ := h.exists_of_quoteBy hb
    have hfold := h.foldlM_append_eq_ok_iff.2 ⟨ga, gb, hfirst, hga ▸ hsecond, rfl⟩
    exact Result.bind_eq_ok.2 ⟨_, hfold, finish_eq_ok_iff.2 ⟨hamount.trans hgb.symm,
      (RouteCosts.aggregate_append_eq_ok_iff hapos hbpos).2 ⟨_, _, hca, hcb, hboth⟩⟩⟩

theorem exists_joins (h : Gathers step) (hq : quoteBy step amount (first ++ second) = .ok q) :
    ∃ a b, quoteBy step amount first = .ok a ∧ quoteBy step a.amount second = .ok b ∧
      Joins a b q := by
  obtain ⟨a, b, ha, hb, hamount, hboth⟩ := h.quoteBy_append_eq_ok_iff.1 hq
  obtain ⟨hpositive, hascending⟩ := h.listed_of_quoteBy hq
  refine ⟨a, b, ha, hb, hamount, fun cost => ?_, hascending, hpositive⟩
  rw [← RouteCosts.inRoute_append]
  exact RouteCosts.aggregate_eq_ok_iff.1 hboth cost

theorem exists_quoteBy_append (h : Gathers step) (ha : quoteBy step amount first = .ok a)
    (hb : quoteBy step a.amount second = .ok b) (hroom : RoomFor a b) :
    ∃ q, quoteBy step amount (first ++ second) = .ok q := by
  have hpositive : (a.costs ++ b.costs).Positive :=
    (h.listed_of_quoteBy ha).1.append (h.listed_of_quoteBy hb).1
  obtain ⟨costs, hcosts⟩ := (RouteCosts.exists_aggregate_iff hpositive).2 fun cost denom => by
    rw [RouteCosts.inRoute_append, Coin.total_append]
    exact hroom cost denom
  exact ⟨⟨b.amount, costs⟩, h.quoteBy_append_eq_ok_iff.2 ⟨a, b, ha, hb, rfl, hcosts⟩⟩

end Gathers

/-- A route in two parts is quoted as its parts are, forward and backward, where the costs of both
together are amounts. -/
theorem quotes_of_parts (r : Registry) (solver : Solver) (amount : Int) {first second : List Hop}
    (hfirst : first ≠ []) (hsecond : second ≠ []) :
    (∀ q, quote r solver amount (first ++ second) = .ok q →
      ∃ a b, quote r solver amount first = .ok a ∧ quote r solver a.amount second = .ok b ∧
        Joins a b q) ∧
    (∀ a b, quote r solver amount first = .ok a → quote r solver a.amount second = .ok b →
      RoomFor a b → ∃ q, quote r solver amount (first ++ second) = .ok q) ∧
    (∀ q, quoteOffer r solver amount (first ++ second) = .ok q →
      ∃ b a, quoteOffer r solver amount second = .ok b ∧
        quoteOffer r solver b.amount first = .ok a ∧ Joins b a q) ∧
    ∀ b a, quoteOffer r solver amount second = .ok b →
      quoteOffer r solver b.amount first = .ok a → RoomFor b a →
        ∃ q, quoteOffer r solver amount (first ++ second) = .ok q := by
  have hboth : first ++ second ≠ [] := List.append_ne_nil_of_left_ne_nil hfirst second
  have hforth := gathers_forwardHop r solver
  have hback := gathers_backwardHop r solver
  simp only [quote_of_ne_nil hfirst, quote_of_ne_nil hsecond, quote_of_ne_nil hboth,
    quoteOffer_of_ne_nil hfirst, quoteOffer_of_ne_nil hsecond, quoteOffer_of_ne_nil hboth,
    List.reverse_append]
  refine ⟨?_, ?_, ?_, ?_⟩
  · exact fun q hq => hforth.exists_joins hq
  · exact fun a b ha hb hroom => hforth.exists_quoteBy_append ha hb hroom
  · exact fun q hq => hback.exists_joins hq
  · exact fun b a hb ha hroom => hback.exists_quoteBy_append hb ha hroom

def backAgain : List Hop := [⟨"uatom", "uusd", "uusd.uatom"⟩]

/-- Two of the three hops charge in one denom, and their charges are put together: what 10000 uom
bring, and what is needed for 10000 uusd. -/
theorem quotes_of_parts_backAgain :
    (∃ a b q, quote (Registry.ofPools neighbours) {} 10000 throughBoth = .ok a ∧
      quote (Registry.ofPools neighbours) {} a.amount backAgain = .ok b ∧
      quote (Registry.ofPools neighbours) {} 10000 (throughBoth ++ backAgain) = .ok q ∧
      Joins a b q ∧ q.costs.swapFees = [⟨"uatom", 13⟩, ⟨"uusd", 149⟩]) ∧
    ∃ b a q, quoteOffer (Registry.ofPools neighbours) {} 10000 backAgain = .ok b ∧
      quoteOffer (Registry.ofPools neighbours) {} b.amount throughBoth = .ok a ∧
      quoteOffer (Registry.ofPools neighbours) {} 10000 (throughBoth ++ backAgain) = .ok q ∧
      Joins b a q ∧ q.amount = 5336 ∧ q.costs.swapFees = [⟨"uatom", 7⟩, ⟨"uusd", 81⟩] := by
  obtain ⟨hforth, -, hback, -⟩ := quotes_of_parts (Registry.ofPools neighbours) {} 10000
    (by decide : throughBoth ≠ []) (by decide : backAgain ≠ [])
  constructor
  · obtain ⟨q, hq, hfees⟩ : ∃ q,
        quote (Registry.ofPools neighbours) {} 10000 (throughBoth ++ backAgain) = .ok q ∧
          q.costs.swapFees = [⟨"uatom", 13⟩, ⟨"uusd", 149⟩] :=
      ⟨_, rfl, by decide⟩
    obtain ⟨a, b, ha, hb, hjoins⟩ := hforth q hq
    exact ⟨a, b, q, ha, hb, hq, hjoins, hfees⟩
  · obtain ⟨q, hq, hamount, hfees⟩ : ∃ q,
        quoteOffer (Registry.ofPools neighbours) {} 10000 (throughBoth ++ backAgain) = .ok q ∧
          q.amount = 5336 ∧ q.costs.swapFees = [⟨"uatom", 7⟩, ⟨"uusd", 81⟩] :=
      ⟨_, rfl, by decide, by decide⟩
    obtain ⟨b, a, hb, ha, hjoins⟩ := hback q hq
    exact ⟨b, a, q, hb, ha, hq, hjoins, hamount, hfees⟩

end Route

end MarketMaker
