import MarketMaker.Proofs.ConstantProduct
import MarketMaker.Proofs.Reading
import MarketMaker.Proofs.Reserve
import MarketMaker.Route.Basic

/-! # Offers quoted for a return

On the constant product curve an offer that is quoted for a return brings at least that return, in
one pool and along a route. Where nothing is charged it is also at most any offer that brings the
return.

What one hop pays is not monotone in its offer, because each fee is rounded down for itself. So the
lemmas here speak of all offers at or above the quoted one, or of all returns at or below the paid
one: this is what the next hop of a route needs. -/

namespace MarketMaker

namespace ConstantProduct

variable {offer ask amount returned : Int} {fees : FeeSchedule} {b : OfferQuote} {q : SwapQuote}

/-- An offer is quoted through the gross return that the fees leave the return of. -/
theorem exists_offerFor_of_quoteOffer (h : quoteOffer offer ask returned fees = .ok b) :
    ∃ gross, grossAmount fees returned = .ok gross ∧ offerFor offer ask gross = .ok b.offer ∧
      0 ≤ b.offer := by
  simp only [quoteOffer, Result.bind_eq_ok, Checked.narrow_eq_ok_iff, Except.ok.injEq] at h
  obtain ⟨gross, hgross, needed, hneeded, _, -, _, ⟨hnonneg, -, rfl⟩, rfl⟩ := h
  exact ⟨gross, hgross, hneeded, hnonneg⟩

/-- An offer at or above the one that is quoted for a return brings that return after fees. -/
theorem le_returned (hoffer : 0 ≤ offer) (hb : quoteOffer offer ask returned fees = .ok b)
    (hle : b.offer ≤ amount) (hq : quote offer ask amount fees = .ok q) :
    returned ≤ q.returned := by
  obtain ⟨gross, hgross, hneeded, hnonneg⟩ := exists_offerFor_of_quoteOffer hb
  obtain ⟨r, hr, hnet⟩ := Result.bind_eq_ok.1 hq
  have hamount : 0 ≤ amount := Int.le_trans hnonneg hle
  exact GrossReturn.le_returned hnet hgross ((needed_le_iff hoffer hamount hneeded hr).1 hle)

/-- Without fees, what is quoted for a return is at most any offer that brings it. -/
theorem offer_le (hfree : fees.total = .zero) (hoffer : 0 ≤ offer) (hamount : 0 ≤ amount)
    (hq : quote offer ask amount fees = .ok q) (hle : returned ≤ q.returned)
    (hb : quoteOffer offer ask returned fees = .ok b) : b.offer ≤ amount := by
  obtain ⟨gross, hgross, hneeded, -⟩ := exists_offerFor_of_quoteOffer hb
  obtain ⟨r, hr, hnet⟩ := Result.bind_eq_ok.1 hq
  have hpaid : q.returned ≤ r.amount := GrossReturn.returned_le_of_net hnet (grossReturn_nonneg hr)
  rw [needed_le_iff hoffer hamount hneeded hr]
  calc gross ≤ returned := grossAmount_le_of_free hfree hgross
    _ ≤ q.returned := hle
    _ ≤ r.amount := hpaid

end ConstantProduct

theorem Pool.exists_balances {p : Pool} (hp : p.Valid) (hcurve : p.curve = .constantProduct)
    {solver : Solver} {offerDenom askDenom : String} {returned amount : Int} {b : OfferQuote}
    {q : SwapQuote} (hb : p.quoteOffer solver ⟨askDenom, returned⟩ offerDenom = .ok b)
    (hq : p.quote solver ⟨offerDenom, amount⟩ askDenom = .ok q) :
    ∃ offer ask, 0 ≤ offer ∧ ConstantProduct.quoteOffer offer ask returned p.fees = .ok b ∧
      ConstantProduct.quote offer ask amount p.fees = .ok q := by
  obtain ⟨sides, hsides, hb⟩ := Result.bind_eq_ok.1 hb
  obtain ⟨sides', hsides', hq⟩ := Result.bind_eq_ok.1 hq
  cases hsides.symm.trans hsides'
  rw [hcurve] at hb hq
  have hoffer := (hp.assets_valid _ (Pool.pairs_of_pair hsides).offer_mem).2.1
  exact ⟨sides.offer, sides.ask, hoffer, hb, hq⟩

namespace Route

variable {r : Registry} {solver : Solver}

def OnConstantProduct (r : Registry) (hops : List Hop) : Prop :=
  ∀ hop ∈ hops, ∀ pool, r.get? hop.pool = some pool → pool.Valid ∧ pool.curve = .constantProduct

def FreeOfCharge (r : Registry) (hops : List Hop) : Prop :=
  ∀ hop ∈ hops, ∀ pool, r.get? hop.pool = some pool → pool.fees.total = .zero

/-! ### One hop -/

section

variable {hop : Hop} {wanted offered b f : RouteQuote}

/-- A hop forward is a valid coin at the price of its pool, where every amount fits. -/
theorem forwardHop_eq_ok_iff : forwardHop r solver offered hop = .ok f ↔
    (⟨hop.offerDenom, offered.amount⟩ : Coin).Valid ∧ ∃ pool q, r.get? hop.pool = some pool ∧
      pool.quote solver ⟨hop.offerDenom, offered.amount⟩ hop.askDenom = .ok q ∧ q.Fits ∧
        f = ⟨q.returned, offered.costs.record hop.askDenom q.spread q.charges⟩ := by
  simp only [forwardHop, Registry.quote, Result.bind_eq_ok, Coin.make_eq_ok_iff,
    SwapQuote.reported_eq_ok_iff, Registry.get_eq_ok_iff, Except.ok.injEq]
  constructor
  · rintro ⟨_, ⟨hcoin, rfl⟩, q, ⟨pool, hpool, _, hq, hfits, rfl⟩, rfl⟩
    exact ⟨hcoin, pool, q, hpool, hq, hfits, rfl⟩
  · rintro ⟨hcoin, pool, q, hpool, hq, hfits, rfl⟩
    exact ⟨_, ⟨hcoin, rfl⟩, q, ⟨pool, hpool, q, hq, hfits, rfl⟩, rfl⟩

theorem backwardHop_eq_ok_iff : backwardHop r solver wanted hop = .ok b ↔
    (⟨hop.askDenom, wanted.amount⟩ : Coin).Valid ∧ ∃ pool q, r.get? hop.pool = some pool ∧
      pool.quoteOffer solver ⟨hop.askDenom, wanted.amount⟩ hop.offerDenom = .ok q ∧ q.Fits ∧
        b = ⟨q.offer, wanted.costs.record hop.askDenom q.spread q.charges⟩ := by
  simp only [backwardHop, Registry.quoteOffer, Result.bind_eq_ok, Coin.make_eq_ok_iff,
    OfferQuote.reported_eq_ok_iff, Registry.get_eq_ok_iff, Except.ok.injEq]
  constructor
  · rintro ⟨_, ⟨hcoin, rfl⟩, q, ⟨pool, hpool, _, hq, hfits, rfl⟩, rfl⟩
    exact ⟨hcoin, pool, q, hpool, hq, hfits, rfl⟩
  · rintro ⟨hcoin, pool, q, hpool, hq, hfits, rfl⟩
    exact ⟨_, ⟨hcoin, rfl⟩, q, ⟨pool, hpool, q, hq, hfits, rfl⟩, rfl⟩

/-- What a hop asks for and what it pays are prices at the balances of the same pool. -/
theorem exists_balances_of_hops
    (hpools : ∀ pool, r.get? hop.pool = some pool → pool.Valid ∧ pool.curve = .constantProduct)
    (hb : backwardHop r solver wanted hop = .ok b) (hf : forwardHop r solver offered hop = .ok f) :
    ∃ pool, r.get? hop.pool = some pool ∧ 0 ≤ offered.amount ∧ ∃ offer ask quoted q, 0 ≤ offer ∧
      ConstantProduct.quoteOffer offer ask wanted.amount pool.fees = .ok quoted ∧
      ConstantProduct.quote offer ask offered.amount pool.fees = .ok q ∧
      b.amount = quoted.offer ∧ f.amount = q.returned := by
  obtain ⟨-, pool, quoted, hpool, hquoted, -, rfl⟩ := backwardHop_eq_ok_iff.1 hb
  obtain ⟨hcoin, pool', q, hpool', hq, -, rfl⟩ := forwardHop_eq_ok_iff.1 hf
  cases hpool.symm.trans hpool'
  obtain ⟨offer, ask, hoffer, hquoted, hq⟩ :=
    Pool.exists_balances (hpools pool hpool).1 (hpools pool hpool).2 hquoted hq
  exact ⟨pool, hpool, hcoin.2.1, offer, ask, quoted, q, hoffer, hquoted, hq, rfl, rfl⟩

theorem le_of_hops
    (hpools : ∀ pool, r.get? hop.pool = some pool → pool.Valid ∧ pool.curve = .constantProduct)
    (hb : backwardHop r solver wanted hop = .ok b) (hle : b.amount ≤ offered.amount)
    (hf : forwardHop r solver offered hop = .ok f) : wanted.amount ≤ f.amount := by
  obtain ⟨pool, -, -, offer, ask, quoted, q, hoffer, hquoted, hq, hb, hf⟩ :=
    exists_balances_of_hops hpools hb hf
  rw [hb] at hle
  rw [hf]
  exact ConstantProduct.le_returned hoffer hquoted hle hq

theorem le_offered_of_hops
    (hpools : ∀ pool, r.get? hop.pool = some pool → pool.Valid ∧ pool.curve = .constantProduct)
    (hfree : ∀ pool, r.get? hop.pool = some pool → pool.fees.total = .zero)
    (hf : forwardHop r solver offered hop = .ok f) (hle : wanted.amount ≤ f.amount)
    (hb : backwardHop r solver wanted hop = .ok b) : b.amount ≤ offered.amount := by
  obtain ⟨pool, hpool, hamount, offer, ask, quoted, q, hoffer, hquoted, hq, hb, hf⟩ :=
    exists_balances_of_hops hpools hb hf
  rw [hf] at hle
  rw [hb]
  exact ConstantProduct.offer_le (hfree pool hpool) hoffer hamount hq hle hquoted

end

/-! ### All hops -/

/-- Backward the first hop of a route comes last. -/
theorem foldlM_reverse_cons_eq_ok {hop : Hop} {rest : List Hop} {wanted b : RouteQuote} :
    (hop :: rest).reverse.foldlM (backwardHop r solver) wanted = .ok b ↔
      ∃ between, rest.reverse.foldlM (backwardHop r solver) wanted = .ok between ∧
        backwardHop r solver between hop = .ok b := by
  simp only [List.reverse_cons, List.foldlM_append, List.foldlM_cons, List.foldlM_nil,
    Result.bind_eq_ok, pure, Except.pure, Except.ok.injEq, exists_eq_right]

/-- The induction is on the hops in the order of the swap: the quoted offer of the first of them is
the one that the swap starts from. -/
theorem le_of_folds {hops : List Hop} (hpools : OnConstantProduct r hops)
    {wanted offered b f : RouteQuote}
    (hb : hops.reverse.foldlM (backwardHop r solver) wanted = .ok b)
    (hle : b.amount ≤ offered.amount)
    (hf : hops.foldlM (forwardHop r solver) offered = .ok f) :
    wanted.amount ≤ f.amount := by
  induction hops generalizing offered b with
  | nil =>
      cases hb
      cases hf
      exact hle
  | cons hop rest ih =>
      obtain ⟨between, hrest, hlast⟩ := foldlM_reverse_cons_eq_ok.1 hb
      rw [List.foldlM_cons, Result.bind_eq_ok] at hf
      obtain ⟨next, hfirst, hf⟩ := hf
      have hnext : between.amount ≤ next.amount :=
        le_of_hops (hpools hop List.mem_cons_self) hlast hle hfirst
      exact ih (fun h hmem => hpools h (List.mem_cons_of_mem _ hmem)) hrest hnext hf

/-- The same induction, from the end of the route to its start: what the hops after the first ask
for is at most what the first has paid. -/
theorem le_offered_of_folds {hops : List Hop} (hpools : OnConstantProduct r hops)
    (hfree : FreeOfCharge r hops) {wanted offered b f : RouteQuote}
    (hf : hops.foldlM (forwardHop r solver) offered = .ok f) (hle : wanted.amount ≤ f.amount)
    (hb : hops.reverse.foldlM (backwardHop r solver) wanted = .ok b) :
    b.amount ≤ offered.amount := by
  induction hops generalizing offered b with
  | nil =>
      cases hb
      cases hf
      exact hle
  | cons hop rest ih =>
      obtain ⟨between, hrest, hlast⟩ := foldlM_reverse_cons_eq_ok.1 hb
      rw [List.foldlM_cons, Result.bind_eq_ok] at hf
      obtain ⟨next, hfirst, hf⟩ := hf
      have hnext : between.amount ≤ next.amount :=
        ih (fun h hmem => hpools h (List.mem_cons_of_mem _ hmem))
          (fun h hmem => hfree h (List.mem_cons_of_mem _ hmem)) hf hrest
      exact le_offered_of_hops (hpools hop List.mem_cons_self) (hfree hop List.mem_cons_self)
        hfirst hnext hlast

/-- The whole route is the fold over its hops; only the costs are gathered after it. -/
theorem exists_fold_of_quote {hops : List Hop} {offer : Int} {f : RouteQuote}
    (h : quote r solver offer hops = .ok f) :
    ∃ forth, hops.foldlM (forwardHop r solver) ⟨offer, {}⟩ = .ok forth ∧
      forth.amount = f.amount := by
  simp only [quote, finish, Result.guarded_eq_ok, Result.bind_eq_ok, Except.ok.injEq] at h
  obtain ⟨-, forth, hforth, _, -, rfl⟩ := h
  exact ⟨forth, hforth, rfl⟩

theorem exists_fold_of_quoteOffer {hops : List Hop} {returned : Int} {b : RouteQuote}
    (h : quoteOffer r solver returned hops = .ok b) :
    ∃ back, hops.reverse.foldlM (backwardHop r solver) ⟨returned, {}⟩ = .ok back ∧
      back.amount = b.amount := by
  simp only [quoteOffer, finish, Result.guarded_eq_ok, Result.bind_eq_ok, Except.ok.injEq] at h
  obtain ⟨-, back, hback, _, -, rfl⟩ := h
  exact ⟨back, hback, rfl⟩

/-- Along a route, every offer at or above the quoted one brings the return it was quoted for. -/
theorem le_amount_of_le {hops : List Hop} (hpools : OnConstantProduct r hops)
    {returned offer : Int} {b f : RouteQuote} (hb : quoteOffer r solver returned hops = .ok b)
    (hle : b.amount ≤ offer) (hf : quote r solver offer hops = .ok f) : returned ≤ f.amount := by
  obtain ⟨back, hback, hstart⟩ := exists_fold_of_quoteOffer hb
  obtain ⟨forth, hforth, hend⟩ := exists_fold_of_quote hf
  have hreached : back.amount ≤ (⟨offer, {}⟩ : RouteQuote).amount := hstart ▸ hle
  have hpaid : returned ≤ forth.amount := le_of_folds hpools hback hreached hforth
  exact hend ▸ hpaid

/-- The offer that is quoted for a return along a route brings that return along the same route. -/
theorem quoted_offer_suffices {hops : List Hop} (hpools : OnConstantProduct r hops)
    {returned : Int} {b f : RouteQuote} (hb : quoteOffer r solver returned hops = .ok b)
    (hf : quote r solver b.amount hops = .ok f) : returned ≤ f.amount :=
  le_amount_of_le hpools hb (Int.le_refl _) hf

def neighbours : List Pool :=
  [ { identifier := "uom.uusd"
      assets := [⟨"uom", 1000000⟩, ⟨"uusd", 2000000⟩]
      curve := .constantProduct
      lpDenom := "factory/uom-uusd"
      fees :=
        { swap := ⟨3000000000000000⟩, protocol := ⟨2000000000000000⟩, burn := ⟨1000000000000000⟩,
          extra := [⟨1000000000000000⟩] }
      decimals := [6, 6] },
    { identifier := "uusd.uatom"
      assets := [⟨"uusd", 500000⟩, ⟨"uatom", 70000⟩]
      curve := .constantProduct
      lpDenom := "factory/uusd-uatom"
      fees := { swap := ⟨5000000000000000⟩ }
      decimals := [6, 6] } ]

def throughBoth : List Hop := [⟨"uom", "uusd", "uom.uusd"⟩, ⟨"uusd", "uatom", "uusd.uatom"⟩]

theorem quoted_offer_suffices_throughBoth :
    ∃ b f, quoteOffer (Registry.ofPools neighbours) {} 1000 throughBoth = .ok b ∧
      quote (Registry.ofPools neighbours) {} b.amount throughBoth = .ok f ∧ 1000 ≤ f.amount := by
  have hpools : OnConstantProduct (Registry.ofPools neighbours) throughBoth := by
    intro hop hmem pool hpool
    simp only [throughBoth, List.mem_cons, List.not_mem_nil, or_false] at hmem
    rcases hmem with rfl | rfl
    all_goals
      cases hpool
      exact ⟨by decide, rfl⟩
  obtain ⟨b, hb⟩ : ∃ b, quoteOffer (Registry.ofPools neighbours) {} 1000 throughBoth = .ok b :=
    ⟨_, rfl⟩
  obtain ⟨f, hf⟩ : ∃ f, quote (Registry.ofPools neighbours) {} b.amount throughBoth = .ok f := by
    cases hb
    exact ⟨_, rfl⟩
  exact ⟨b, f, hb, hf, quoted_offer_suffices hpools hb hf⟩

/-- Without fees, the offer that is quoted for what a route returns is at most the offer that it
returned it for. -/
theorem quoted_offer_le_offered {hops : List Hop} (hpools : OnConstantProduct r hops)
    (hfree : FreeOfCharge r hops) {offer : Int} {b f : RouteQuote}
    (hf : quote r solver offer hops = .ok f) (hb : quoteOffer r solver f.amount hops = .ok b) :
    b.amount ≤ offer := by
  obtain ⟨forth, hforth, hend⟩ := exists_fold_of_quote hf
  obtain ⟨back, hback, hstart⟩ := exists_fold_of_quoteOffer hb
  have hwanted : (⟨f.amount, {}⟩ : RouteQuote).amount ≤ forth.amount := Int.le_of_eq hend.symm
  have hasked : back.amount ≤ offer := le_offered_of_folds hpools hfree hforth hwanted hback
  exact hstart ▸ hasked

def freeNeighbours : List Pool := neighbours.map fun pool => { pool with fees := {} }

/-- Both roundings are seen: 1009 are offered, and less would do. -/
theorem quoted_offer_le_offered_throughBoth :
    ∃ b f, quote (Registry.ofPools freeNeighbours) {} 1009 throughBoth = .ok f ∧
      quoteOffer (Registry.ofPools freeNeighbours) {} f.amount throughBoth = .ok b ∧
      b.amount < 1009 ∧ b.amount ≤ 1009 := by
  have hpools : OnConstantProduct (Registry.ofPools freeNeighbours) throughBoth := by
    intro hop hmem pool hpool
    simp only [throughBoth, List.mem_cons, List.not_mem_nil, or_false] at hmem
    rcases hmem with rfl | rfl
    all_goals
      cases hpool
      exact ⟨by decide, rfl⟩
  have hfree : FreeOfCharge (Registry.ofPools freeNeighbours) throughBoth := by
    intro hop hmem pool hpool
    simp only [throughBoth, List.mem_cons, List.not_mem_nil, or_false] at hmem
    rcases hmem with rfl | rfl
    all_goals
      cases hpool
      rfl
  obtain ⟨f, hf⟩ : ∃ f, quote (Registry.ofPools freeNeighbours) {} 1009 throughBoth = .ok f :=
    ⟨_, rfl⟩
  obtain ⟨b, hb, hless⟩ : ∃ b,
      quoteOffer (Registry.ofPools freeNeighbours) {} f.amount throughBoth = .ok b ∧
        b.amount < 1009 := by
    cases hf
    exact ⟨_, rfl, by decide⟩
  exact ⟨b, f, hf, hb, hless, quoted_offer_le_offered hpools hfree hf hb⟩

end Route

end MarketMaker
