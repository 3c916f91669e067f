import MarketMaker.Proofs.Chain.SwapThenDeposit
import MarketMaker.Proofs.Numeral
import MarketMaker.Proofs.Route.Cost

/-! # Routes that are travelled

A route is quoted from pools that stand still. Whoever travels it makes one swap after another, and
every swap changes its pool and the ledger. No swap changes another pool, nor the settings: where no
pool comes twice, each hop finds the pool that it was quoted from. -/

namespace MarketMaker

/-! ## What a swap answers -/

/-- The amount that a response gives under a name, or zero if it gives none. -/
def Response.amount (r : Response) (name : String) : Int :=
  ((r.attributes.lookup name).map fun s => Text.ofNumeral s.toList).getD 0

def Cost.label : Cost → String
  | spread => "spread_amount"
  | swapFee => "swap_fee_amount"
  | protocolFee => "protocol_fee_amount"
  | burnFee => "burn_fee_amount"
  | extraFees => "extra_fees_amount"

structure Response.Reports (r : Response) (q : SwapQuote) : Prop where
  returned : r.amount "return_amount" = q.returned
  costs : ∀ cost : Cost, r.amount cost.label = cost.inQuote q

theorem Response.amount_of_lookup {r : Response} {name : String} {x : Int}
    (h : r.attributes.lookup name = some (toString x)) : r.amount name = x := by
  rw [amount, h, Option.map_some, Text.ofNumeral_toString, Option.getD_some]

/-- The response to a swap reports the price that it was made at. -/
theorem SwapOrder.reports_filled (order : SwapOrder) (s : State) (call : Call) (offer : Coin)
    (pool : Pool) (sides : AssetPair) (q : SwapQuote) :
    (order.filled s call offer pool sides q).settlement.toResponse.Reports q where
  returned := Response.amount_of_lookup rfl
  costs cost := by
    cases cost <;> exact Response.amount_of_lookup rfl

/-- What a swap returns is sent to its receiver. -/
theorem SwapOrder.send_mem_filled (order : SwapOrder) (s : State) (call : Call) (offer : Coin)
    (pool : Pool) (sides : AssetPair) {q : SwapQuote} (h : 0 < q.returned) :
    Message.effect (.send (call.receiver order.receiver) [⟨order.askDenom, q.returned⟩]) ∈
      (order.filled s call offer pool sides q).settlement.toResponse.messages := by
  refine List.mem_map_of_mem ?_
  simp [filled, effects, h]

/-! ## Legs -/

/-- A hop of a route as it is travelled, with the limits that the traveller sets. -/
structure Leg where
  hop : Hop
  beliefPrice : Option Ratio := none
  maxSpread : Option Ratio := none
  receiver : Option String := none
  deriving DecidableEq, Repr

namespace Leg

def order (leg : Leg) : SwapOrder where
  pool := leg.hop.pool
  askDenom := leg.hop.askDenom
  beliefPrice := leg.beliefPrice
  maxSpread := leg.maxSpread
  receiver := leg.receiver

/-- The return goes to the traveller, who is named as the receiver or not. -/
def PaysTo (leg : Leg) (sender : String) : Prop :=
  Call.receiver ⟨sender, [], ""⟩ leg.receiver = sender

instance (leg : Leg) (sender : String) : Decidable (leg.PaysTo sender) :=
  inferInstanceAs (Decidable (_ = sender))

/-- Where some of a return is reported, it is sent to the traveller. -/
def PaidOut (sender : String) (leg : Leg) (r : Response) : Prop :=
  0 < r.amount "return_amount" →
    Message.effect (.send sender [⟨leg.hop.askDenom, r.amount "return_amount"⟩]) ∈ r.messages

end Leg

/-- The coins that responses report under a name, each in the denom that its leg asks for. -/
def reportedCoins (name : String) : List Leg → List Response → List Coin :=
  List.zipWith fun leg r => ⟨leg.hop.askDenom, r.amount name⟩

namespace Chain

variable {c c' : Chain} {sender : String}

/-- Makes the swaps of a route one by one; each offers what the one before it has returned. -/
def travel (sender : String) : Int → List Leg → Action Chain (List Response)
  | _, [] => pure []
  | offer, leg :: rest => do
    let r ← execute sender [⟨leg.hop.offerDenom, offer⟩] (.swap leg.order)
    let more ← travel sender (r.amount "return_amount") rest
    pure (r :: more)

/-- An address that the fees of swaps do not go to, nor what they pay with. -/
structure Outside (c : Chain) (address : String) : Prop where
  manager : address ≠ managerAddress
  collector : address ≠ c.state.config.feeCollector

/-! ## One leg -/

/-- A leg that was travelled: the price of its pool as it stood, what the traveller has paid and got
for it, and what has not changed. -/
structure Travelled (c c' : Chain) (sender : String) (leg : Leg) (offer : Int) (r : Response)
    (q : SwapQuote) : Prop where
  quoted : ∃ pool, c.state.registry.get? leg.hop.pool = some pool ∧
    pool.quote c.state.config.solver ⟨leg.hop.offerDenom, offer⟩ leg.hop.askDenom = .ok q
  reports : r.Reports q
  paid : leg.PaysTo sender → leg.PaidOut sender r
  balance : leg.PaysTo sender → c.Outside sender → ∀ denom,
    c'.state.ledger.balance sender denom + Coin.total denom [⟨leg.hop.offerDenom, offer⟩] =
      c.state.ledger.balance sender denom +
        Coin.total denom [⟨leg.hop.askDenom, r.amount "return_amount"⟩]
  config : c'.state.config = c.state.config
  others : ∀ id ≠ leg.hop.pool, c'.state.registry.get? id = c.state.registry.get? id

theorem balance_of_swapped {funds : List Coin} {l : Ledger} {ask : String} {q : SwapQuote}
    {pool : Pool} (hq : q.Sound) (hout : c.Outside sender)
    (hpaid : Ledger.transfer sender managerAddress funds c.state.ledger = .ok () l)
    (happly : applyEffects (SwapOrder.effects c.state.config sender ask q)
      { c.counted.funded l with state := (c.counted.funded l).state.savePool pool } = .ok () c')
    (denom : String) : c'.state.ledger.balance sender denom + Coin.total denom funds =
      c.state.ledger.balance sender denom + Coin.total denom [⟨ask, q.returned⟩] := by
  have hmoved := (Ledger.moved_of_transfer hpaid).trans (moved_of_applyEffects happly)
  rw [hmoved.balance, SwapOrder.gains_effects _ _ _ hq, Ledger.gainOf_self,
    Ledger.gainOf_of_ne hout.manager.symm, Ledger.single_self,
    Ledger.single_of_ne hout.collector.symm, Ledger.single_of_ne hout.manager.symm]
  omega

theorem travelled_of_execute {leg : Leg} {offer : Int} {r : Response}
    (hnamed : ∀ pool, c.state.registry.get? leg.hop.pool = some pool →
      pool.identifier = leg.hop.pool)
    (h : execute sender [⟨leg.hop.offerDenom, offer⟩] (.swap leg.order) c = .ok r c') :
    ∃ q, Travelled c c' sender leg offer r q := by
  obtain ⟨l, o, hpaid, hrun, rfl, happly⟩ := execute_swap_eq_ok.1 h
  obtain ⟨⟨offered, pool, sides, q, hfunds, hallows, rfl⟩, -⟩ := SwapOrder.run_eq_ok_iff.1 hrun
  cases hfunds
  have hstored : c.state.registry.get? leg.hop.pool = some pool := hallows.stored
  have hreports := leg.order.reports_filled (c.counted.funded l).state
    (c.nextCall sender [⟨leg.hop.offerDenom, offer⟩]) ⟨leg.hop.offerDenom, offer⟩ pool sides q
  have hbooks := sameBooks_of_applyEffects happly
  refine ⟨q, ⟨pool, hstored, Result.bind_eq_ok.2 ⟨sides, hallows.paired, hallows.quoted⟩⟩, hreports,
    fun hpays hpos => ?_, fun hpays hout denom => ?_, hbooks.config, fun id hne => ?_⟩
  · have hreceiver : (c.nextCall sender [⟨leg.hop.offerDenom, offer⟩]).receiver leg.receiver =
        sender := hpays
    have hsent := leg.order.send_mem_filled (c.counted.funded l).state
      (c.nextCall sender [⟨leg.hop.offerDenom, offer⟩]) ⟨leg.hop.offerDenom, offer⟩ pool sides
      (hreports.returned ▸ hpos)
    rw [Leg.order, hreceiver, ← hreports.returned] at hsent
    exact hsent
  · have hreceiver : (c.nextCall sender [⟨leg.hop.offerDenom, offer⟩]).receiver leg.receiver =
        sender := hpays
    simp only [SwapOrder.filled, Leg.order, hreceiver] at happly
    rw [hreports.returned]
    exact balance_of_swapped (Market.sound_of_quote hallows.quoted) hout hpaid happly denom
  · have hid : pool.identifier ≠ id := fun heq => hne (heq.symm.trans (hnamed pool hstored))
    have hsaved := congrArg (·.get? id) hbooks.registry
    exact hsaved.trans (Table.get?_put.trans (if_neg hid))

/-! ## All legs -/

theorem travel_cons_eq_ok {offer : Int} {leg : Leg} {rest : List Leg} {rs : List Response} :
    travel sender offer (leg :: rest) c = .ok rs c' ↔ ∃ r more c₁,
      execute sender [⟨leg.hop.offerDenom, offer⟩] (.swap leg.order) c = .ok r c₁ ∧
        travel sender (r.amount "return_amount") rest c₁ = .ok more c' ∧ rs = r :: more := by
  simp only [travel, Action.bind_eq_ok, Action.pure_eq_ok]
  constructor
  · rintro ⟨r, c₁, hfirst, more, _, hrest, rfl, rfl⟩
    exact ⟨r, more, c₁, hfirst, hrest, rfl⟩
  · rintro ⟨r, more, c₁, hfirst, hrest, rfl⟩
    exact ⟨r, c₁, hfirst, more, c', hrest, rfl, rfl⟩

end Chain

namespace Route

/-- The hops of legs lead from one denom to another: each sets out with the denom that the one
before it has asked for. -/
def Leads (start : String) : List Leg → String → Prop
  | [], goal => start = goal
  | leg :: rest, goal => leg.hop.offerDenom = start ∧ Leads leg.hop.askDenom rest goal

/-- What has come of an offer after responses: the return of the last of them. -/
def arrived (offer : Int) (rs : List Response) : Int :=
  rs.foldl (fun _ r => r.amount "return_amount") offer

theorem arrived_of_getLast? {offer : Int} {rs : List Response} {r : Response}
    (h : rs.getLast? = some r) : arrived offer rs = r.amount "return_amount" := by
  obtain ⟨before, rfl⟩ := List.getLast?_eq_some_iff.1 h
  simp [arrived]

/-- What responses to the swaps of a route have to do with a quote of the route: the amount is what
arrived, the costs have grown by those that were reported, and the returns were paid. In the ledger
the traveller has given what was there so far for what arrived. -/
structure Delivered (c c' : Chain) (sender : String) (legs : List Leg) (rs : List Response)
    (soFar f : RouteQuote) : Prop where
  amount : f.amount = arrived soFar.amount rs
  costs : ∀ (cost : Cost) (denom : String), Coin.total denom (cost.inRoute f.costs) =
    Coin.total denom (cost.inRoute soFar.costs) +
      Coin.total denom (reportedCoins cost.label legs rs)
  paid : ∀ e ∈ legs.zip rs, e.1.PaysTo sender → e.1.PaidOut sender e.2
  balance : (∀ leg ∈ legs, leg.PaysTo sender) → c.Outside sender → ∀ start goal,
    Leads start legs goal → ∀ denom,
      c'.state.ledger.balance sender denom + Coin.total denom [⟨start, soFar.amount⟩] =
        c.state.ledger.balance sender denom + Coin.total denom [⟨goal, arrived soFar.amount rs⟩]

/-- A hop that was quoted and is travelled from the same pool delivers its quote. -/
theorem Delivered.cons {c c₁ c' : Chain} {sender : String} {leg : Leg} {rest : List Leg}
    {r : Response} {more : List Response} {soFar next f : RouteQuote} {q : SwapQuote}
    (htravelled : c.Travelled c₁ sender leg soFar.amount r q) (hfits : q.Fits)
    (hnext : next = ⟨q.returned, soFar.costs.record leg.hop.askDenom q.spread q.charges⟩)
    (hrest : Delivered c₁ c' sender rest more next f) :
    Delivered c c' sender (leg :: rest) (r :: more) soFar f where
  amount := by
    rw [hrest.amount, hnext, arrived, arrived, List.foldl_cons, htravelled.reports.returned]
  costs cost denom := by
    have hnonneg := cost.inQuote_nonneg hfits
    have hhop : next.costs =
        soFar.costs.record leg.hop.askDenom q.spread q.charges := congrArg RouteQuote.costs hnext
    calc Coin.total denom (cost.inRoute f.costs)
        = Coin.total denom (cost.inRoute next.costs) +
            Coin.total denom (reportedCoins cost.label rest more) := hrest.costs cost denom
      _ = Coin.total denom (cost.inRoute soFar.costs) +
            (Coin.total denom [⟨leg.hop.askDenom, r.amount cost.label⟩] +
              Coin.total denom (reportedCoins cost.label rest more)) := by
          rw [hhop, Cost.inRoute_record, RouteCosts.total_note hnonneg, htravelled.reports.costs,
            Int.add_assoc]
      _ = Coin.total denom (cost.inRoute soFar.costs) +
            Coin.total denom (reportedCoins cost.label (leg :: rest) (r :: more)) := by
          rw [← Coin.total_append]
          rfl
  paid := by
    intro e he
    rw [List.zip_cons_cons, List.mem_cons] at he
    rcases he with rfl | he
    · exact htravelled.paid
    · exact hrest.paid e he
  balance := by
    intro hpays hout start goal hleads denom
    rw [List.forall_mem_cons] at hpays
    obtain ⟨rfl, hleads⟩ := hleads
    have hfirst := htravelled.balance hpays.1 hout denom
    have hlater := hrest.balance hpays.2 ⟨hout.manager, htravelled.config ▸ hout.collector⟩ _ _
      hleads denom
    rw [hnext, ← htravelled.reports.returned] at hlater
    dsimp only at hlater
    rw [arrived, List.foldl_cons, ← arrived]
    omega

/-- The induction is on the legs. What is left of the route goes through pools that no swap so far
has touched, so they are still as the quote found them. -/
theorem delivered_of_travel {r : Registry} {sender : String} {c c' : Chain} {legs : List Leg}
    {soFar f : RouteQuote} {rs : List Response}
    (hnamed : ∀ id pool, r.get? id = some pool → pool.identifier = id)
    (hstill : ∀ leg ∈ legs, c.state.registry.get? leg.hop.pool = r.get? leg.hop.pool)
    (hdistinct : (legs.map fun leg => leg.hop.pool).Nodup)
    (hfold : (legs.map Leg.hop).foldlM (forwardHop r c.state.config.solver) soFar = .ok f)
    (htravel : Chain.travel sender soFar.amount legs c = .ok rs c') :
    Delivered c c' sender legs rs soFar f := by
  induction legs generalizing c soFar rs with
  | nil =>
      obtain ⟨rfl, rfl⟩ := Action.pure_eq_ok.1 htravel
      cases hfold
      refine ⟨rfl, fun _ _ => (Int.add_zero _).symm, fun _ he => (nomatch he), ?_⟩
      rintro - - start _ rfl denom
      rfl
  | cons leg rest ih =>
      obtain ⟨response, more, c₁, hfirst, hrest, rfl⟩ := Chain.travel_cons_eq_ok.1 htravel
      rw [List.map_cons, List.foldlM_cons, Result.bind_eq_ok] at hfold
      obtain ⟨next, hhop, hfold⟩ := hfold
      rw [List.map_cons, List.nodup_cons] at hdistinct
      rw [List.forall_mem_cons] at hstill
      obtain ⟨q, htravelled⟩ := Chain.travelled_of_execute
        (fun pool hpool => hnamed _ pool (hstill.1 ▸ hpool)) hfirst
      obtain ⟨-, pool, q', hpool, hquote, hfits, hnext⟩ := forwardHop_eq_ok_iff.1 hhop
      obtain ⟨pool', hpool', hquote'⟩ := htravelled.quoted
      cases (hstill.1.symm.trans hpool').symm.trans hpool
      cases hquote'.symm.trans hquote
      refine .cons htravelled hfits hnext (ih (c := c₁) ?_ hdistinct.2 ?_ ?_)
      · intro other hother
        have hne : other.hop.pool ≠ leg.hop.pool := fun heq =>
          hdistinct.1 (heq ▸ List.mem_map_of_mem hother)
        rw [htravelled.others _ hne]
        exact hstill.2 other hother
      · rw [htravelled.config]
        exact hfold
      · rw [hnext, ← htravelled.reports.returned]
        exact hrest

/-- A quote that was delivered: the last swap returns its amount, in every denom the swaps report
its costs, and each pays its return to the traveller. Where the hops lead on, the traveller has
given the offer for the quoted amount in the ledger, and nothing else. -/
structure Realized (c c' : Chain) (f : RouteQuote) (sender : String) (offer : Int)
    (legs : List Leg) (rs : List Response) : Prop where
  returned : ∃ r, rs.getLast? = some r ∧ r.amount "return_amount" = f.amount
  costs : ∀ (cost : Cost) (denom : String), Coin.total denom (cost.inRoute f.costs) =
    Coin.total denom (reportedCoins cost.label legs rs)
  paid : ∀ e ∈ legs.zip rs, e.1.PaidOut sender e.2
  balance : c.Outside sender → ∀ start goal, Leads start legs goal → ∀ denom,
    c'.state.ledger.balance sender denom + Coin.total denom [⟨start, offer⟩] =
      c.state.ledger.balance sender denom + Coin.total denom [⟨goal, f.amount⟩]

/-- Whoever travels a route of distinct pools right after it was quoted, and makes it to the end, is
delivered what was quoted, whatever the limits set on the way. -/
theorem realized_of_travel {c c' : Chain} {sender : String} {offer : Int} {legs : List Leg}
    {f : RouteQuote} {rs : List Response} (hreachable : c.Reachable)
    (hdistinct : (legs.map fun leg => leg.hop.pool).Nodup)
    (hself : ∀ leg ∈ legs, leg.PaysTo sender)
    (hquote : quote c.state.registry c.state.config.solver offer (legs.map Leg.hop) = .ok f)
    (htravel : Chain.travel sender offer legs c = .ok rs c') :
    Realized c c' f sender offer legs rs := by
  simp only [quote, finish, Result.guarded_eq_ok, Result.bind_eq_ok, Except.ok.injEq,
    List.map_eq_nil_iff] at hquote
  obtain ⟨hsome, forth, hforth, costs, haggregate, rfl⟩ := hquote
  have hnamed := hreachable.regular.registry
  have hdelivered : Delivered c c' sender legs rs ⟨offer, {}⟩ forth := delivered_of_travel
    (fun id pool hpool => (hnamed id pool hpool).1) (fun _ _ => rfl) hdistinct hforth htravel
  refine ⟨?_, fun cost denom => ?_, fun e he => ?_, fun hout start goal hleads denom => ?_⟩
  · cases hlast : rs.getLast? with
    | none =>
        obtain rfl := List.getLast?_eq_none_iff.1 hlast
        cases legs with
        | nil => exact absurd rfl hsome
        | cons leg rest =>
            obtain ⟨_, _, _, _, _, hcons⟩ := Chain.travel_cons_eq_ok.1 htravel
            cases hcons
    | some r => exact ⟨r, rfl, (arrived_of_getLast? hlast).symm.trans hdelivered.amount.symm⟩
  · have haggregated := Coin.total_aggregate (Cost.aggregate_inRoute haggregate cost) denom
    have hgrown := hdelivered.costs cost denom
    have hnone : Coin.total denom (cost.inRoute {}) = 0 := by
      cases cost <;> rfl
    rwa [hnone, Int.zero_add, ← haggregated] at hgrown
  · exact hdelivered.paid e he (hself e.1 (List.of_mem_zip he).1)
  · rw [hdelivered.balance hself hout start goal hleads denom, hdelivered.amount]

/-- A chain with two pools that share a denom, and a traveller. -/
def neighbourChain : Chain :=
  Chain.run (.fund "alice" [⟨"uom", 100000⟩] :: neighbours.map .addPool) (.empty {} true)

theorem reachable_neighbourChain : neighbourChain.Reachable := by
  refine (Chain.Reachable.empty {} true).run fun e he => ?_
  simp only [neighbours, List.map_cons, List.map_nil, List.mem_cons, List.not_mem_nil,
    or_false] at he
  rcases he with rfl | rfl | rfl
  · exact .fund (by decide)
  · exact .addPool (by decide)
  · exact .addPool (by decide)

/-- The way through both pools, with limits on the spread; the traveller is named once. -/
def legsThroughBoth : List Leg :=
  [ { hop := ⟨"uom", "uusd", "uom.uusd"⟩, maxSpread := some ⟨500000000000000000⟩ },
    { hop := ⟨"uusd", "uatom", "uusd.uatom"⟩, maxSpread := some ⟨500000000000000000⟩
      receiver := some "alice" } ]

theorem realized_of_travel_throughBoth : ∃ f rs c',
    quote neighbourChain.state.registry neighbourChain.state.config.solver 20000 throughBoth =
        .ok f ∧
      Chain.travel "alice" 20000 legsThroughBoth neighbourChain = .ok rs c' ∧
        Realized neighbourChain c' f "alice" 20000 legsThroughBoth rs ∧
          c'.state.ledger.balance "alice" "uom" = 80000 ∧
          c'.state.ledger.balance "alice" "uusd" = 0 ∧
          c'.state.ledger.balance "alice" "uatom" = f.amount := by
  have htravels : (Chain.travel "alice" 20000 legsThroughBoth).succeeds neighbourChain = true := by
    decide +kernel
  obtain ⟨f, hquote⟩ : ∃ f, quote neighbourChain.state.registry
      neighbourChain.state.config.solver 20000 throughBoth = .ok f := ⟨_, rfl⟩
  obtain ⟨rs, htravel⟩ := Chain.exists_ok_after htravels
  have hrealized := realized_of_travel reachable_neighbourChain (by decide) (by decide) hquote
    htravel
  have hbalance := hrealized.balance ⟨by decide, by decide⟩ "uom" "uatom" ⟨rfl, rfl, rfl⟩
  have hbefore : neighbourChain.state.ledger.balance "alice" "uom" = 100000 ∧
      neighbourChain.state.ledger.balance "alice" "uusd" = 0 ∧
      neighbourChain.state.ledger.balance "alice" "uatom" = 0 := by decide +kernel
  have huom := hbalance "uom"
  have huusd := hbalance "uusd"
  have huatom := hbalance "uatom"
  simp only [Coin.total_singleton, hbefore, String.reduceEq, reduceIte, Int.add_zero,
    Int.zero_add] at huom huusd huatom
  exact ⟨f, rs, _, hquote, htravel, hrealized, by omega, huusd, huatom⟩

end Route

end MarketMaker
