import MarketMaker.Http.Service
import MarketMaker.Proofs.Fault
import MarketMaker.Proofs.Market
import MarketMaker.Proofs.Route
import MarketMaker.Query.Basic

/-! # What ends a query for a price

Returns and offers are narrowed to 128 bits, and charges are taken from a reserve. Nothing narrows a
spread. So a query ends with an answer or with a fault of the domain as long as every spread that it
comes to is an amount. The first one that is not is rejected when its quote is reported, and this is
no fault of the domain. -/

namespace MarketMaker

open Result (OnlyFaults)

/-! ## Results that a spread decides -/

/-- Where a condition on spreads holds, a result is there or a fault of the domain; else it is the
rejection of a spread. -/
structure DecidedBySpread {α : Type} (fits : Prop) (x : Result α) : Prop where
  faults : fits → OnlyFaults x
  rejected : ¬fits → ∃ spread, maxAmount < spread ∧ x = .error (spreadTooLarge spread)

namespace DecidedBySpread

variable {α β : Type} {fits : Prop} {x : Result α}

theorem of_faults (hx : OnlyFaults x) : DecidedBySpread True x :=
  ⟨fun _ => hx, fun h => absurd trivial h⟩

theorem onlyFaults_iff (h : DecidedBySpread fits x) : OnlyFaults x ↔ fits := by
  refine ⟨fun hx => ?_, h.faults⟩
  by_contra hfits
  obtain ⟨spread, -, rfl⟩ := h.rejected hfits
  cases hx _ rfl

theorem congr {fits' : Prop} (h : DecidedBySpread fits x) (hiff : fits' ↔ fits) :
    DecidedBySpread fits' x :=
  ⟨fun hfits => h.faults (hiff.1 hfits), fun hfits => h.rejected (mt hiff.2 hfits)⟩

theorem bind {f : α → Result β} {rest : α → Prop} (hx : DecidedBySpread fits x)
    (hf : ∀ a, x = .ok a → DecidedBySpread (rest a) (f a)) :
    DecidedBySpread (fits ∧ ∀ a, x = .ok a → rest a) (x >>= f) where
  faults h := OnlyFaults.bind_iff.2 ⟨hx.faults h.1, fun a ha => (hf a ha).faults (h.2 a ha)⟩
  rejected h := by
    by_cases hfits : fits
    · obtain ⟨a, ha, hrest⟩ : ∃ a, x = .ok a ∧ ¬rest a := by
        have hall : ¬∀ a, x = .ok a → rest a := fun hall => h ⟨hfits, hall⟩
        simpa only [not_forall, exists_prop] using hall
      obtain ⟨spread, hlarge, he⟩ := (hf a ha).rejected hrest
      exact ⟨spread, hlarge, by rw [ha]; exact he⟩
    · obtain ⟨spread, hlarge, rfl⟩ := hx.rejected hfits
      exact ⟨spread, hlarge, rfl⟩

/-- What follows without spreads of its own leaves the decision as it is. -/
theorem bind_faults {f : α → Result β} (hx : DecidedBySpread fits x)
    (hf : ∀ a, OnlyFaults (f a)) : DecidedBySpread fits (x >>= f) :=
  (hx.bind fun a _ => of_faults (hf a)).congr (by simp)

theorem map (h : DecidedBySpread fits x) (f : α → β) : DecidedBySpread fits (x.map f) where
  faults hfits := (h.faults hfits).map f
  rejected hfits := by
    obtain ⟨spread, hlarge, rfl⟩ := h.rejected hfits
    exact ⟨spread, hlarge, rfl⟩

end DecidedBySpread

/-! ## Reports -/

/-- Where all else of a quote fits, the spread decides its report. -/
theorem SwapQuote.decidedBySpread {q : SwapQuote}
    (hreturned : 0 ≤ q.returned ∧ q.returned ≤ maxAmount) (hspread : 0 ≤ q.spread)
    (hcharges : q.charges.Fits) : DecidedBySpread (q.spread ≤ maxAmount) q.reported where
  faults hle := by
    have hfits : q.Fits := ⟨hreturned, ⟨hspread, hle⟩, hcharges⟩
    rw [reported_eq_ok_iff.2 ⟨hfits, rfl⟩]
    exact .ok q
  rejected hlarge :=
    ⟨q.spread, Int.not_le.1 hlarge, reported_of_large hreturned (Int.not_le.1 hlarge) hcharges⟩

theorem OfferQuote.decidedBySpread {b : OfferQuote}
    (hoffer : 0 ≤ b.offer ∧ b.offer ≤ maxAmount) (hspread : 0 ≤ b.spread)
    (hcharges : b.charges.Fits) : DecidedBySpread (b.spread ≤ maxAmount) b.reported where
  faults hle := by
    have hfits : b.Fits := ⟨hoffer, ⟨hspread, hle⟩, hcharges⟩
    rw [reported_eq_ok_iff.2 ⟨hfits, rfl⟩]
    exact .ok b
  rejected hlarge :=
    ⟨b.spread, Int.not_le.1 hlarge, reported_of_large hoffer (Int.not_le.1 hlarge) hcharges⟩

/-! ## One pool -/

namespace Pool

variable {p : Pool} {solver : Solver}

theorem decidedBySpread_of_quote (hp : p.Valid) {offer : Coin} {ask : String}
    (hoffer : 0 ≤ offer.amount) {q : SwapQuote} (h : p.quote solver offer ask = .ok q) :
    DecidedBySpread (q.spread ≤ maxAmount) q.reported := by
  obtain ⟨sides, hsides, hquote⟩ := Result.bind_eq_ok.1 h
  have hpairs := pairs_of_pair hsides
  have hmarket := hp.market hpairs
  have hask : 0 ≤ (p.market sides).ask := (hp.assets_valid _ hpairs.ask_mem).2.1
  obtain ⟨hreturned, hmax, -⟩ := Market.sound_of_quote hquote
  exact SwapQuote.decidedBySpread ⟨hreturned, hmax⟩
    (hmarket.within_reserve hquote hask hoffer).1 (hmarket.charges_fit hquote hask hoffer)

theorem decidedBySpread_of_quoteOffer (hp : p.Valid) {ask : Coin} {offer : String}
    (hask : 0 ≤ ask.amount) {b : OfferQuote} (h : p.quoteOffer solver ask offer = .ok b) :
    DecidedBySpread (b.spread ≤ maxAmount) b.reported := by
  obtain ⟨sides, hsides, hquote⟩ := Result.bind_eq_ok.1 h
  have hreserve := (hp.market (pairs_of_pair hsides)).ask
  have hbuys := Market.buys_of_quoteOffer hquote
  exact OfferQuote.decidedBySpread hbuys.offer hbuys.spread (hbuys.charges_fit hask hreserve)

end Pool

namespace Registry

variable {r : Registry} {solver : Solver}

/-- The spread of a coin's price in one pool, where there is a price, is an amount. -/
def SpreadFits (r : Registry) (solver : Solver) (offer : Coin) (ask pool : String) : Prop :=
  ∀ p, r.get pool = .ok p → ∀ q, p.quote solver offer ask = .ok q → q.spread ≤ maxAmount

/-- The spread of the offer for a coin in one pool, where there is one, is an amount. -/
def OfferSpreadFits (r : Registry) (solver : Solver) (ask : Coin) (offer pool : String) : Prop :=
  ∀ p, r.get pool = .ok p → ∀ b, p.quoteOffer solver ask offer = .ok b → b.spread ≤ maxAmount

theorem decidedBySpread_quote (hr : r.Sound) {offer : Coin} {ask pool : String}
    (hoffer : 0 ≤ offer.amount) :
    DecidedBySpread (r.SpreadFits solver offer ask pool) (r.quote solver offer ask pool) := by
  have hpool (p : Pool) (hp : r.get pool = .ok p) :=
    (DecidedBySpread.of_faults (p.onlyFaults_quote solver offer ask)).bind fun q hq =>
      Pool.decidedBySpread_of_quote (hr _ _ (get_eq_ok_iff.1 hp)).2 hoffer hq
  refine ((DecidedBySpread.of_faults (r.onlyFaults_get pool)).bind hpool).congr ?_
  simp only [SpreadFits, true_and]

theorem decidedBySpread_quoteOffer (hr : r.Sound) {ask : Coin} {offer pool : String}
    (hask : 0 ≤ ask.amount) :
    DecidedBySpread (r.OfferSpreadFits solver ask offer pool)
      (r.quoteOffer solver ask offer pool) := by
  have hpool (p : Pool) (hp : r.get pool = .ok p) :=
    (DecidedBySpread.of_faults (p.onlyFaults_quoteOffer solver ask offer)).bind fun b hb =>
      Pool.decidedBySpread_of_quoteOffer (hr _ _ (get_eq_ok_iff.1 hp)).2 hask hb
  refine ((DecidedBySpread.of_faults (r.onlyFaults_get pool)).bind hpool).congr ?_
  simp only [OfferSpreadFits, true_and]

end Registry

/-! ## Routes -/

/-- A hop between denoms that have names. -/
def Hop.Named (hop : Hop) : Prop := hop.offerDenom ≠ "" ∧ hop.askDenom ≠ ""

instance (hop : Hop) : Decidable hop.Named := inferInstanceAs (Decidable (_ ∧ _))

theorem Coin.onlyFaults_tally (c : Coin) (coins : List Coin) : OnlyFaults (tally c coins) := by
  induction coins with
  | nil => exact (Checked.onlyFaults_add _ _).map _
  | cons d rest ih =>
      rw [tally]
      split
      · exact (Checked.onlyFaults_add _ _).map _
      · split
        · exact (Checked.onlyFaults_add _ _).map _
        · exact ih.map _

theorem Coin.onlyFaults_aggregate (coins : List Coin) : OnlyFaults (aggregate coins) :=
  .foldlM (fun totals c => onlyFaults_tally c totals) coins []

theorem RouteCosts.onlyFaults_aggregate (costs : RouteCosts) : OnlyFaults costs.aggregate :=
  (Coin.onlyFaults_aggregate _).bind fun _ => (Coin.onlyFaults_aggregate _).bind fun _ =>
    (Coin.onlyFaults_aggregate _).bind fun _ => (Coin.onlyFaults_aggregate _).bind fun _ =>
      (Coin.onlyFaults_aggregate _).bind fun _ => .ok _

namespace Route

variable {r : Registry} {solver : Solver}

/-- A condition at each hop that a walk along a route reaches. -/
def AtEachHop (step : RouteQuote → Hop → Result RouteQuote) (fits : RouteQuote → Hop → Prop) :
    RouteQuote → List Hop → Prop
  | _, [] => True
  | soFar, hop :: rest =>
    fits soFar hop ∧ ∀ next, step soFar hop = .ok next → AtEachHop step fits next rest

theorem onlyFaults_finish (q : RouteQuote) : OnlyFaults (finish q) :=
  q.costs.onlyFaults_aggregate.bind fun _ => .ok _

/-- The induction is on the hops. What one hop gives is an amount, so that the next one starts from
a coin. -/
theorem decidedBySpread_walk {step : RouteQuote → Hop → Result RouteQuote}
    {fits : RouteQuote → Hop → Prop}
    (hnext : ∀ soFar hop next, step soFar hop = .ok next →
      0 ≤ next.amount ∧ next.amount ≤ maxAmount)
    (hstep : ∀ soFar hop, Hop.Named hop → 0 ≤ soFar.amount ∧ soFar.amount ≤ maxAmount →
      DecidedBySpread (fits soFar hop) (step soFar hop))
    {hops : List Hop} (hnamed : ∀ hop ∈ hops, hop.Named) {start : RouteQuote}
    (hstart : 0 ≤ start.amount ∧ start.amount ≤ maxAmount) :
    DecidedBySpread (AtEachHop step fits start hops) (hops.foldlM step start) := by
  induction hops generalizing start with
  | nil => exact .of_faults (.ok start)
  | cons hop rest ih =>
      obtain ⟨hhop, hrest⟩ := List.forall_mem_cons.1 hnamed
      rw [List.foldlM_cons, AtEachHop]
      exact (hstep start hop hhop hstart).bind fun next h => ih hrest (hnext start hop next h)

theorem amount_of_forwardHop {soFar next : RouteQuote} {hop : Hop}
    (h : forwardHop r solver soFar hop = .ok next) :
    0 ≤ next.amount ∧ next.amount ≤ maxAmount := by
  obtain ⟨-, _, _, -, -, hfits, rfl⟩ := forwardHop_eq_ok_iff.1 h
  exact hfits.returned

theorem amount_of_backwardHop {soFar next : RouteQuote} {hop : Hop}
    (h : backwardHop r solver soFar hop = .ok next) :
    0 ≤ next.amount ∧ next.amount ≤ maxAmount := by
  obtain ⟨-, _, _, -, -, hfits, rfl⟩ := backwardHop_eq_ok_iff.1 h
  exact hfits.offer

/-- The spread of a hop forward is an amount. -/
def ForwardFits (r : Registry) (solver : Solver) (soFar : RouteQuote) (hop : Hop) : Prop :=
  r.SpreadFits solver ⟨hop.offerDenom, soFar.amount⟩ hop.askDenom hop.pool

/-- The spread of a hop backward is an amount. -/
def BackwardFits (r : Registry) (solver : Solver) (soFar : RouteQuote) (hop : Hop) : Prop :=
  r.OfferSpreadFits solver ⟨hop.askDenom, soFar.amount⟩ hop.offerDenom hop.pool

theorem decidedBySpread_forwardHop (hr : r.Sound) {soFar : RouteQuote} {hop : Hop}
    (hhop : hop.Named) (hamount : 0 ≤ soFar.amount ∧ soFar.amount ≤ maxAmount) :
    DecidedBySpread (ForwardFits r solver soFar hop) (forwardHop r solver soFar hop) := by
  have hcoin : Coin.make hop.offerDenom soFar.amount = .ok ⟨hop.offerDenom, soFar.amount⟩ :=
    Coin.make_eq_ok_iff.2 ⟨⟨hhop.1, hamount⟩, rfl⟩
  rw [forwardHop, hcoin]
  exact (Registry.decidedBySpread_quote hr hamount.1).bind_faults fun _ => .ok _

theorem decidedBySpread_backwardHop (hr : r.Sound) {soFar : RouteQuote} {hop : Hop}
    (hhop : hop.Named) (hamount : 0 ≤ soFar.amount ∧ soFar.amount ≤ maxAmount) :
    DecidedBySpread (BackwardFits r solver soFar hop) (backwardHop r solver soFar hop) := by
  have hcoin : Coin.make hop.askDenom soFar.amount = .ok ⟨hop.askDenom, soFar.amount⟩ :=
    Coin.make_eq_ok_iff.2 ⟨⟨hhop.2, hamount⟩, rfl⟩
  rw [backwardHop, hcoin]
  exact (Registry.decidedBySpread_quoteOffer hr hamount.1).bind_faults fun _ => .ok _

theorem decidedBySpread_quote (hr : r.Sound) {offer : Int}
    (hoffer : 0 ≤ offer ∧ offer ≤ maxAmount) {hops : List Hop} (hnamed : ∀ hop ∈ hops, hop.Named) :
    DecidedBySpread (AtEachHop (forwardHop r solver) (ForwardFits r solver) ⟨offer, {}⟩ hops)
      (quote r solver offer hops) := by
  by_cases hempty : hops = []
  · rw [quote, if_pos hempty, hempty]
    exact .of_faults (.fail _)
  · rw [quote, if_neg hempty]
    refine .bind_faults ?_ fun q => onlyFaults_finish q
    exact decidedBySpread_walk (fun _ _ _ => amount_of_forwardHop)
      (fun _ _ => decidedBySpread_forwardHop hr) hnamed hoffer

theorem decidedBySpread_quoteOffer (hr : r.Sound) {ask : Int} (hask : 0 ≤ ask ∧ ask ≤ maxAmount)
    {hops : List Hop} (hnamed : ∀ hop ∈ hops, hop.Named) :
    DecidedBySpread
      (AtEachHop (backwardHop r solver) (BackwardFits r solver) ⟨ask, {}⟩ hops.reverse)
      (quoteOffer r solver ask hops) := by
  by_cases hempty : hops = []
  · rw [quoteOffer, if_pos hempty, hempty]
    exact .of_faults (.fail _)
  · rw [quoteOffer, if_neg hempty]
    refine .bind_faults ?_ fun q => onlyFaults_finish q
    exact decidedBySpread_walk (fun _ _ _ => amount_of_backwardHop)
      (fun _ _ => decidedBySpread_backwardHop hr)
      (fun hop hmem => hnamed hop (List.mem_reverse.1 hmem)) hask

end Route

/-! ## Replies -/

/-- The statuses of answers and of faults of the domain. -/
def Http.expectedStatuses : List Nat := [200, 400, 404]

theorem Http.Reply.status_ofResult_iff {α : Type} {write : α → Json} {x : Result α} :
    (ofResult write x).status ∈ expectedStatuses ↔ OnlyFaults x := by
  cases x with
  | ok a => exact iff_of_true (show 200 ∈ expectedStatuses by decide) (.ok a)
  | error e =>
      cases e with
      | fault cause =>
          refine iff_of_true ?_ (.fail cause)
          change faultStatus cause ∈ expectedStatuses
          rw [faultStatus]
          split
          · decide
          · decide
      | _ => exact iff_of_false (show 500 ∉ expectedStatuses by decide) fun h => nomatch h _ rfl

theorem Http.Reply.ofResult_map {α : Type} (write : α → Json) (x : Result α) :
    ofResult id (x.map write) = ofResult write x := by
  cases x with
  | ok a => rfl
  | error e => rfl

/-! ## Queries -/

/-- A query for a price: of a coin in one pool, or of an amount along a route, each of them forward
and backward. -/
inductive PriceQuery
  | quote (r : PriceRequest)
  | quoteOffer (r : PriceRequest)
  | route (r : RouteRequest)
  | routeOffer (r : RouteRequest)

namespace PriceQuery

def Valid : PriceQuery → Prop
  | quote r | quoteOffer r => r.coin.Valid
  | route r | routeOffer r => (0 ≤ r.amount ∧ r.amount ≤ maxAmount) ∧ ∀ hop ∈ r.hops, hop.Named

/-- Every spread that the query comes to is an amount. -/
def SpreadsFit (s : State) : PriceQuery → Prop
  | quote r => s.registry.SpreadFits s.config.solver r.coin r.otherDenom r.pool
  | quoteOffer r => s.registry.OfferSpreadFits s.config.solver r.coin r.otherDenom r.pool
  | route r =>
    Route.AtEachHop (Route.forwardHop s.registry s.config.solver)
      (Route.ForwardFits s.registry s.config.solver) ⟨r.amount, {}⟩ r.hops
  | routeOffer r =>
    Route.AtEachHop (Route.backwardHop s.registry s.config.solver)
      (Route.BackwardFits s.registry s.config.solver) ⟨r.amount, {}⟩ r.hops.reverse

/-- What the query ends with, answers as JSON. -/
def run (s : State) : PriceQuery → Result Json
  | quote r => (s.quote r.coin r.otherDenom r.pool).map SwapQuote.model.write
  | quoteOffer r => (s.quoteOffer r.coin r.otherDenom r.pool).map OfferQuote.model.write
  | route r => (s.quoteRoute r.amount r.hops).map RouteQuote.forwardModel.write
  | routeOffer r => (s.quoteRouteOffer r.amount r.hops).map RouteQuote.backwardModel.write

open Http (readBody)

def endpoint : PriceQuery → Http.Endpoint
  | quote _ => .simulate
  | quoteOffer _ => .reverseSimulate
  | route _ => .simulateRoute
  | routeOffer _ => .reverseSimulateRoute

/-- The body of a request to the query's endpoint stands for the query. -/
def ReadFrom (body : Option Json) : PriceQuery → Prop
  | quote r => readBody (PriceRequest.forward .modelAttributesType) body = .accepted r
  | quoteOffer r => readBody (PriceRequest.backward .modelAttributesType) body = .accepted r
  | route r => readBody (RouteRequest.forward .modelAttributesType) body = .accepted r
  | routeOffer r => readBody (RouteRequest.backward .modelAttributesType) body = .accepted r

variable {s : State} {q : PriceQuery}

theorem decidedBySpread_run (hs : s.registry.Sound) (hq : q.Valid) :
    DecidedBySpread (q.SpreadsFit s) (q.run s) := by
  cases q with
  | quote r => exact (Registry.decidedBySpread_quote hs hq.2.1).map _
  | quoteOffer r => exact (Registry.decidedBySpread_quoteOffer hs hq.2.1).map _
  | route r => exact (Route.decidedBySpread_quote hs hq.1 hq.2).map _
  | routeOffer r => exact (Route.decidedBySpread_quoteOffer hs hq.1 hq.2).map _

theorem answer_of_readFrom {body : Option Json} (h : q.ReadFrom body) (t : Http.Target) :
    Http.answer s t body q.endpoint = .ofResult id (q.run s) := by
  cases q with
  | quote r | quoteOffer r | route r | routeOffer r =>
      simp only [ReadFrom] at h
      simp only [endpoint, Http.answer, Http.priceReply, Http.routeReply, Http.withReading, h, run,
        Http.Reply.ofResult_map]

/-- A query for a price ends with an answer or a fault of the domain exactly if every spread that it
comes to is an amount, and so does the reply to a request for it. Nothing else ends a query than the
rejection of a spread. -/
theorem ends_in_domain_iff (hs : s.registry.Sound) (hq : q.Valid) :
    (OnlyFaults (q.run s) ↔ q.SpreadsFit s) ∧
      (¬q.SpreadsFit s →
        ∃ spread, maxAmount < spread ∧ q.run s = .error (spreadTooLarge spread)) ∧
      ∀ body t, q.ReadFrom body →
        ((Http.answer s t body q.endpoint).status ∈ Http.expectedStatuses ↔ q.SpreadsFit s) := by
  have hdecided := decidedBySpread_run hs hq
  refine ⟨hdecided.onlyFaults_iff, hdecided.rejected, fun body t hbody => ?_⟩
  rw [answer_of_readFrom hbody, Http.Reply.status_ofResult_iff, hdecided.onlyFaults_iff]

/-- A pool with one unit of one asset and as much as there can be of the other. -/
def lopsided : Pool where
  identifier := "o.lopsided"
  assets := [⟨"uom", 1⟩, ⟨"uusd", maxAmount⟩]
  curve := .constantProduct
  lpDenom := "factory/o.lopsided"
  fees := {}
  decimals := [6, 6]

def lopsidedState : State := (State.empty {}).savePool lopsided

theorem sound_lopsided : lopsidedState.registry.Sound := Registry.sound_empty.save (by decide)

def offering (amount : Int) : PriceRequest := ⟨⟨"uom", amount⟩, "uusd", "o.lopsided"⟩

def asking (amount : Int) : PriceRequest := ⟨⟨"uusd", amount⟩, "uom", "o.lopsided"⟩

def through (amount : Int) : RouteRequest := ⟨amount, [⟨"uom", "uusd", "o.lopsided"⟩]⟩

def posted (amount : Int) : Json :=
  .object
    [ ("offer_asset", .object [("denom", .text "uom"), ("amount", .int amount)]),
      ("ask_asset_denom", .text "uusd"),
      ("pool_identifier", .text "o.lopsided") ]

theorem ends_in_domain_offeringOne :
    ((quote (offering 1)).Valid ∧ (quote (offering 1)).ReadFrom (some (posted 1))) ∧
      OnlyFaults ((quote (offering 1)).run lopsidedState) ∧
      (Http.answer lopsidedState ⟨"/simulate", []⟩ (some (posted 1)) .simulate).status ∈
        Http.expectedStatuses := by
  have hvalid : (quote (offering 1)).Valid := by
    change (offering 1).coin.Valid
    decide
  have hread : (quote (offering 1)).ReadFrom (some (posted 1)) := rfl
  have hfits : (quote (offering 1)).SpreadsFit lopsidedState := by
    intro p hp q hq
    cases hp
    cases hq
    decide
  obtain ⟨hrun, -, hreply⟩ := ends_in_domain_iff sound_lopsided hvalid
  exact ⟨⟨hvalid, hread⟩, hrun.2 hfits, (hreply _ ⟨"/simulate", []⟩ hread).2 hfits⟩

/-- Two units of the scarce asset, and all but one unit of the other, are priced with spreads that
are too large, in the pool and along the route through it. -/
theorem rejected_lopsided :
    ((quote (offering 2)).Valid ∧
        (quote (offering 2)).run lopsidedState =
          .error (spreadTooLarge 453709822561251284617832809909024281940)) ∧
      ((quoteOffer (asking (maxAmount - 1))).Valid ∧
        (quoteOffer (asking (maxAmount - 1))).run lopsidedState = .error (spreadTooLarge
          115792089237316195423570985008687907851908855197956810185604085578186056794116)) ∧
      ¬OnlyFaults ((route (through 2)).run lopsidedState) ∧
      ¬OnlyFaults ((routeOffer (through (maxAmount - 1))).run lopsidedState) := by
  have hoffering : (offering 2).coin.Valid := by decide
  have hasking : (asking (maxAmount - 1)).coin.Valid := by decide
  refine ⟨⟨hoffering, rfl⟩, ⟨hasking, rfl⟩, fun h => ?_, fun h => ?_⟩
  · cases h _ rfl
  · cases h _ rfl

end PriceQuery

end MarketMaker
