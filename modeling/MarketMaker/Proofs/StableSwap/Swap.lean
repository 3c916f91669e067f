import MarketMaker.Operation.Deposit
import MarketMaker.Proofs.Operation.Swap
import MarketMaker.Proofs.StableSwap.Balance
import MarketMaker.Proofs.StableSwap.Iterate

/-! # What a swap keeps of the stableswap invariant

A swap is priced on its two balances alone, with the number of assets of the whole pool. It keeps
that invariant up to one unit of the asked asset. The invariant of all assets, on which shares are
priced, it does not keep. -/

namespace MarketMaker

namespace Precision

theorem unitsPer_pos (places : Nat) : 0 < unitsPer places := Int.pow_pos (by decide)

theorem raise_add (a b source target : Int) :
    raise (a + b) source target = raise a source target + raise b source target :=
  Int.add_mul _ _ _

theorem raise_pos {a : Int} (h : 0 < a) (source target : Int) : 0 < raise a source target :=
  Int.mul_pos h (unitsPer_pos _)

theorem raise_nonneg {a : Int} (h : 0 ≤ a) (source target : Int) : 0 ≤ raise a source target :=
  Int.mul_nonneg h (Int.le_of_lt (unitsPer_pos _))

theorem raise_le_raise {a b : Int} (h : a ≤ b) (source target : Int) :
    raise a source target ≤ raise b source target :=
  Int.mul_le_mul_of_nonneg_right h (Int.le_of_lt (unitsPer_pos _))

/-- What is lowered and raised again does not grow. -/
theorem raise_lower_le (a source target : Int) :
    raise (lower a source target) target source ≤ a := fdiv_mul_le a (unitsPer_pos _)

end Precision

namespace StableSwap.Side

open Precision

def invariant (solver : Solver) (s : Side) : Result Int :=
  pairInvariant solver s.amp s.n s.offerRaised s.askRaised

theorem invariant_eq_of_two {solver : Solver} {s : Side} (h : s.n = 2) :
    s.invariant solver = StableSwap.invariant solver s.amp [s.offerRaised, s.askRaised] := by
  rw [invariant, pairInvariant, h, StableSwap.invariant]
  rfl

/-- With one more unit of the asked asset, the two balances cover an invariant. -/
def Covers (s : Side) (d : Int) : Prop :=
  StableSwap.Covers (s.amp * s.n ^ s.n.toNat) s.n [s.offerRaised, s.askRaised + 1] d

def traded (s : Side) (amount out : Int) : Side :=
  { s with offer := s.offer + amount, ask := s.ask - out }

theorem offerRaised_traded (s : Side) (amount out : Int) :
    (s.traded amount out).offerRaised =
      s.offerRaised + raise amount s.offerDecimals s.precision := raise_add _ _ _ _

theorem askRaised_traded (s : Side) (amount out : Int) :
    (s.traded amount out).askRaised = s.askRaised - raise out s.askDecimals s.precision := by
  have hsum := raise_add (s.ask - out) out s.askDecimals s.precision
  rw [Int.sub_add_cancel] at hsum
  change raise (s.ask - out) s.askDecimals s.precision = _
  rw [askRaised]
  omega

variable {s : Side} {solver : Solver} {amount : Int} {gross : GrossReturn}

/-- A return that is paid leaves the two balances with the invariant that it was priced on. -/
theorem covers_of_grossReturn (h : grossReturn solver s amount = .ok gross) (hn : 2 ≤ s.n)
    (hamp : 1 ≤ s.amp) (hoffer : 0 < s.offer) (hask : 0 < s.ask) (hamount : 0 ≤ amount) :
    ∃ d, s.invariant solver = .ok d ∧ 0 ≤ d ∧
      ∀ out, 0 < out → out ≤ gross.amount → (s.traded amount out).Covers d := by
  simp only [grossReturn, Result.bind_eq_ok, Except.ok.injEq] at h
  obtain ⟨y, hy, rfl⟩ := h
  have hofferRaised : 0 < s.offerRaised := raise_pos hoffer _ _
  have haskRaised : 0 < s.askRaised := raise_pos hask _ _
  have hraised : 0 ≤ raise amount s.offerDecimals s.precision := raise_nonneg hamount _ _
  obtain ⟨d, hd, hdnonneg, hynonneg, hcovers⟩ :=
    covers_of_counterBalance hn hamp hofferRaised haskRaised hraised hy
  refine ⟨d, hd, hdnonneg, ?_⟩
  intro out hout hle
  dsimp only at hle
  have hpaid : raise out s.askDecimals s.precision ≤ Checked.subFloor s.askRaised (y + 1) :=
    Int.le_trans (raise_le_raise hle _ _) (raise_lower_le _ _ _)
  have hpos : 0 < raise out s.askDecimals s.precision := raise_pos hout _ _
  have hkept : y + 2 ≤ s.askRaised - raise out s.askDecimals s.precision + 1 := by
    rw [Checked.subFloor] at hpaid
    omega
  rw [Covers, offerRaised_traded, askRaised_traded]
  exact hcovers.pair_mono (one_le_ann hamp (by omega)) (by omega) (by omega) (by omega) hdnonneg
    hkept

/-- In a pool of two assets, an invariant that is covered does not exceed the computed one. -/
theorem Covers.le_invariant {d d' : Int} (h : s.Covers d) (hn : s.n = 2) (hamp : 1 ≤ s.amp)
    (hoffer : 0 < s.offer) (hask : 0 ≤ s.ask)
    (hd' : StableSwap.invariant solver s.amp [s.offerRaised, s.askRaised + 1] = .ok d') :
    d ≤ d' := by
  have hofferRaised : 0 < s.offerRaised := raise_pos hoffer _ _
  have haskRaised : 0 ≤ s.askRaised := raise_nonneg hask _ _
  have hpositive : ∀ x ∈ [s.offerRaised, s.askRaised + 1], 0 < x := by
    intro x hx
    simp only [List.mem_cons, List.not_mem_nil, or_false] at hx
    rcases hx with rfl | rfl
    · exact hofferRaised
    · omega
  have hcount : (1 : Int) ≤ [s.offerRaised, s.askRaised + 1].length := by simp
  have hnonneg : 0 ≤ d' :=
    invariantOf_nonneg hamp hcount (fun x hx => Int.le_of_lt (hpositive x hx)) hd'
  have hexceeds := not_covers_invariant hamp (List.cons_ne_nil _ _) hpositive hd'
  by_contra hlt
  rw [Covers, hn] at h
  exact hexceeds (StableSwap.Covers.le h (one_le_ann hamp hcount)
    (Int.le_of_lt (scale_pos hcount hpositive)) (by omega) (by omega))

end StableSwap.Side

theorem Pool.Valid.one_le_amp {p : Pool} {amp : Int} (h : p.Valid)
    (hcurve : p.curve = .stableSwap amp) : 1 ≤ amp := by
  have hvalid := h.curve_valid
  rw [hcurve] at hvalid
  exact hvalid.1

namespace SwapOrder

variable {order : SwapOrder} {s s' : State} {call : Call} {offer : Coin} {pool : Pool}
  {sides : AssetPair} {q : SwapQuote} {o : Outcome} {amp : Int}

theorem Fills.side_filled (h : order.Fills s call offer pool sides q o) (amp : Int) :
    (o.pool.market { sides with
      offer := sides.offer + offer.amount
      ask := sides.ask - (q.returned + q.charges.outgoing) }).side amp =
      ((pool.market sides).side amp).traded offer.amount (q.returned + q.charges.outgoing) := by
  have hlength : o.pool.assets.length = pool.assets.length := by
    rw [h.pool_eq, Pool.withAssets, filledAssets, List.length_set, List.length_set]
  simp only [Market.side, Pool.market, StableSwap.Side.traded, hlength]

/-- The order was priced on an invariant, and whatever it pays leaves the balances with it. -/
theorem Fills.covers (h : order.Fills s call offer pool sides q o) (hpool : pool.Valid)
    (hcurve : pool.curve = .stableSwap amp) (hbalances : ∀ c ∈ pool.assets, 0 < c.amount)
    (hamount : 0 ≤ offer.amount) :
    ∃ d, ((pool.market sides).side amp).invariant s.config.solver = .ok d ∧
      (0 < q.returned + q.charges.outgoing →
        (((pool.market sides).side amp).traded offer.amount
          (q.returned + q.charges.outgoing)).Covers d) := by
  have hn : (2 : Int) ≤ pool.assets.length := by
    have hcount := hpool.asset_count.1
    omega
  have hquoted := h.quoted
  rw [hcurve] at hquoted
  obtain ⟨gross, hgross, hnet⟩ := Result.bind_eq_ok.1 hquoted
  obtain ⟨d, hd, -, hcovers⟩ :=
    StableSwap.Side.covers_of_grossReturn hgross hn (hpool.one_le_amp hcurve)
      (hbalances _ h.pairs.offer_mem) (hbalances _ h.pairs.ask_mem) hamount
  refine ⟨d, hd, ?_⟩
  intro hout
  apply hcovers _ hout
  exact GrossReturn.paid_le_of_net hnet (StableSwap.grossReturn_nonneg hgross)

/-- A swap on the stableswap curve keeps the invariant that it is priced on: if the asked balance
falls at all, the two balances and one unit more cover it. In a pool of two assets the invariant
that is computed from them does not fall then. -/
theorem keeps_pair_invariant (hrun : order.run call s = .ok o s')
    (hstored : s.registry.get? order.pool = some pool) (hpool : pool.Valid)
    (hcurve : pool.curve = .stableSwap amp) (hbalances : ∀ c ∈ pool.assets, 0 < c.amount)
    (hfunds : ∀ c ∈ call.funds, c.Valid) :
    ∃ offer before after, call.funds = [offer] ∧
      pool.pair offer.denom order.askDenom = .ok before ∧
      o.pool.pair offer.denom order.askDenom = .ok after ∧
      let side := (pool.market before).side amp
      let side' := (o.pool.market after).side amp
      before.offer ≤ after.offer ∧
        (after.ask = before.ask ∨
          (∃ d, side.invariant s.config.solver = .ok d ∧ side'.Covers d) ∧
            (pool.assets.length = 2 → ∀ d d',
              StableSwap.invariant s.config.solver amp [side.offerRaised, side.askRaised] = .ok d →
              StableSwap.invariant s.config.solver amp [side'.offerRaised, side'.askRaised + 1] =
                .ok d' → d ≤ d')) := by
  obtain ⟨offer, pool', before, q, hfills⟩ := fills_of_run hrun
  obtain rfl : pool' = pool := Option.some.inj (hfills.stored.symm.trans hstored)
  have hamount : 0 ≤ offer.amount := (hfunds offer (hfills.funds ▸ List.mem_singleton.2 rfl)).2.1
  have hoffer : 0 < before.offer := hbalances _ hfills.pairs.offer_mem
  obtain ⟨d, hd, hcovers⟩ := hfills.covers hpool hcurve hbalances hamount
  refine ⟨offer, before, _, hfills.funds, hfills.paired, hfills.pair_filled, ?_⟩
  dsimp only
  rw [hfills.side_filled amp]
  constructor
  · omega
  by_cases hout : q.returned + q.charges.outgoing = 0
  · left
    omega
  · right
    have hreturned := hfills.sound.returned
    have houtgoing := hfills.sound.charges.outgoing
    have hasked := hfills.ask_ge
    have hkept := hcovers (by omega)
    refine ⟨⟨d, hd, hkept⟩, ?_⟩
    intro htwo d₀ d' hd₀ hd'
    have hcount : ((pool'.assets.length : Nat) : Int) = 2 := congrArg Int.ofNat htwo
    have hsame : d = d₀ := by
      rw [StableSwap.Side.invariant_eq_of_two hcount] at hd
      exact Except.ok.inj (hd.symm.trans hd₀)
    rw [← hsame]
    have hofferAfter : 0 < before.offer + offer.amount := by omega
    have haskAfter : 0 ≤ before.ask - (q.returned + q.charges.outgoing) := by omega
    exact hkept.le_invariant hcount (hpool.one_le_amp hcurve) hofferAfter haskAfter hd'

def evenPool (amp : Int) (assets : List Coin) : Pool where
  identifier := "o.even"
  assets := assets
  curve := .stableSwap amp
  lpDenom := "factory/even"
  fees := {}
  decimals := assets.map fun _ => 6

def widePool : Pool := evenPool 100 [⟨"uusd", 100⟩, ⟨"uom", 1000⟩, ⟨"uusdc", 10⟩]

def narrowPool : Pool := evenPool 1 [⟨"uom", 6⟩, ⟨"uusd", 31⟩]

def storedAlone (pool : Pool) : State := (State.empty {}).savePool pool

def offering (denom : String) (amount : Int) : Call := ⟨"bob", [⟨denom, amount⟩], "tx-1"⟩

def toReserve : SwapOrder :=
  { pool := "o.even", askDenom := "uusd", maxSpread := some ⟨500000000000000000⟩ }

theorem keeps_narrow_invariant :
    (∃ o s, toReserve.run (offering "uom" 40) (storedAlone narrowPool) = .ok o s) ∧
      ∃ d d', StableSwap.invariant {} 1 [6, 31] = .ok d ∧
        StableSwap.invariant {} 1 [46, 2 + 1] = .ok d' ∧ d ≤ d' := by
  obtain ⟨o, s, hrun⟩ : ∃ o s,
      toReserve.run (offering "uom" 40) (storedAlone narrowPool) = .ok o s := ⟨_, _, rfl⟩
  obtain ⟨offer, before, after, hoffer, hbefore, hafter, -, hkept⟩ :=
    @keeps_pair_invariant toReserve (storedAlone narrowPool) s (offering "uom" 40) narrowPool o 1
      hrun rfl (by decide) rfl (by decide) (by decide)
  cases hrun
  cases hoffer
  cases hbefore
  cases hafter
  obtain hsame | ⟨-, htwo⟩ := hkept
  · exact absurd hsame (by decide)
  · exact ⟨⟨_, _, rfl⟩, 33, 36, rfl, rfl, htwo rfl 33 36 rfl rfl⟩

def invariantOfAll (amp : Int) (pool : Pool) : Result Int := do
  StableSwap.invariant {} amp (← Deposit.curveAmounts pool pool.balances)

/-- The invariant of all assets falls in a pool of three, and by a unit in one of two. -/
theorem lowers_invariantOfAll :
    widePool.Valid ∧ narrowPool.Valid ∧
      (∃ o s, toReserve.run (offering "uusdc" 100) (storedAlone widePool) = .ok o s ∧
        invariantOfAll 100 widePool = .ok 1090 ∧ invariantOfAll 100 o.pool = .ok 991) ∧
      ∃ o s, toReserve.run (offering "uom" 40) (storedAlone narrowPool) = .ok o s ∧
        invariantOfAll 1 narrowPool = .ok 33 ∧ invariantOfAll 1 o.pool = .ok 32 :=
  ⟨by decide, by decide, ⟨_, _, rfl, rfl, rfl⟩, _, _, rfl, rfl, rfl⟩

end SwapOrder

end MarketMaker
