import MarketMaker.Proofs.Surplus

/-! # Solvency where swaps wait

Between the two phases of a deposit of one asset anything may happen. The second phase records the
return that the first one expected, not the one that its trade pays, so it can record coins that
the manager does not have. That is the only way in which a chain loses its backing, and how much it
loses is known exactly. -/

namespace MarketMaker.Chain

open Ledger

/-! ## Backing -/

/-- The deposits of all provisions that are pending. -/
def pendingDeposits (c : Chain) (denom : String) : Int :=
  c.state.provisions.sumBy fun p => Coin.total denom [p.wholeOffer]

/-- What the manager holds of a denom beyond the reserves of its pools and the pending deposits. -/
def backing (c : Chain) (denom : String) : Int := c.surplus denom - c.pendingDeposits denom

/-- The manager holds what its pools record of a denom and what is pending. -/
def Solvent (c : Chain) (denom : String) : Prop :=
  c.state.registry.reserves denom + c.pendingDeposits denom ≤ c.state.held denom

instance (c : Chain) (denom : String) : Decidable (c.Solvent denom) :=
  inferInstanceAs (Decidable (_ ≤ _))

theorem solvent_iff {c : Chain} {denom : String} : c.Solvent denom ↔ 0 ≤ c.backing denom := by
  rw [Solvent, backing, surplus]
  omega

/-! ## What a completed deposit lacks -/

/-- What a half-swap would return at the present prices. -/
def currentReturn (c : Chain) (h : HalfSwap) : Int :=
  match c.state.registry.get? h.pool with
  | none => 0
  | some pool =>
    match pool.quote c.state.config.solver h.offer h.askDenom with
    | .ok q => q.returned
    | .error _ => 0

/-- The half-swap would be traded and its deposit would be completed. -/
def completes (c : Chain) (h : HalfSwap) : Bool :=
  Action.succeeds (trade h) { c with pending := c.pending.erase h } &&
    Action.succeeds (runHalfSwap h) c

/-- How much more of a denom an event records than it brings: where a deposit is completed, the
return that its first phase expected, less the return of its trade. -/
def shortfall (c : Chain) (denom : String) : Event → Int
  | .runDeferred h =>
    if c.completes h then
      match c.state.provisions.get? h.provision with
      | some p => if p.askDenom = denom then p.expectedReturn - c.currentReturn h else 0
      | none => 0
    else 0
  | .execute .. | .fund .. | .addPool _ => 0

variable {c c' : Chain} {denom : String}

theorem Traded.currentReturn_eq {h : HalfSwap} {pool : Pool} {sides : AssetPair} {q : SwapQuote}
    {o : Outcome} (ht : Traded h { c with pending := c.pending.erase h } c' pool sides q o) :
    c.currentReturn h = q.returned := by
  have hstored : c.state.registry.get? h.pool = some pool := ht.fills.stored
  have hquote : pool.quote c.state.config.solver h.offer h.askDenom = .ok q := by
    rw [Pool.quote, Result.bind_eq_ok]
    exact ⟨sides, ht.fills.paired, ht.fills.quoted⟩
  simp only [currentReturn, hstored, hquote]

/-! ## One event -/

theorem pendingDeposits_erase (c' : Chain) {h : HalfSwap} {p : Provision}
    (waiting : c.state.provisions.get? h.provision = some p)
    (herase : c'.state.provisions = c.state.provisions.erase h.provision) (denom : String) :
    c'.pendingDeposits denom =
      c.pendingDeposits denom - Coin.total denom [p.wholeOffer] := by
  rw [pendingDeposits, herase, Table.sumBy_erase, Table.measureAt_of_get? waiting, pendingDeposits]

theorem pendingDeposits_congr (c c' : Chain) (h : c'.state.provisions = c.state.provisions)
    (denom : String) : c'.pendingDeposits denom = c.pendingDeposits denom := by
  rw [pendingDeposits, h, pendingDeposits]

/-- A transaction leaves the backing as it is: a deposit that is queued is pending instead. -/
theorem backing_of_transacted {call : Call} {op : Operation} (h : Transacted op call c c')
    (hs : c.Sound) (hmanual : c.autoConfirm = false) (hcall : call.FromUser)
    (hpays : op.PaysUser) (hshare : c.state.registry.NotShare denom) :
    c'.backing denom = c.backing denom := by
  cases h with
  | settled paid settles moved books =>
      rename_i l pool o
      have hsurplus := surplus_of_settled (s := (c.funded l).state) hs rfl rfl hcall hpays hshare
        paid settles moved books
      have hpending := pendingDeposits_congr c c' books.provisions denom
      rw [backing, backing, hsurplus, hpending]
  | queued paid begins manual heq =>
      rename_i l order pool coin sides q st
      have hsurplus := surplus_noted hcall.sender_ne paid st.provision denom
      have hwhole := begins.total_wholeOffer hcall denom
      have hfresh : c.state.provisions.get? call.transaction = none := begins.fresh
      have hpending : ((c.noted l call.transaction st.provision).enqueued st.swap).pendingDeposits
          denom = c.pendingDeposits denom + Coin.total denom [st.provision.wholeOffer] := by
        rw [pendingDeposits, enqueued, noted, Table.sumBy_put, Table.measureAt_of_none hfresh,
          Int.sub_zero, pendingDeposits]
      have hsame : ((c.noted l call.transaction st.provision).enqueued st.swap).surplus denom =
          (c.noted l call.transaction st.provision).surplus denom := rfl
      rw [heq, backing, backing, hpending, hsame, hsurplus, hwhole]
      omega
  | confirmed paid begins auto confirmed =>
      rw [hmanual] at auto
      cases auto

/-- A run of a waiting half-swap costs exactly its shortfall where it completes its deposit, and
nothing where it does not. -/
theorem backing_after_runDeferred {h : HalfSwap} (hs : c.Sound) (hh : h ∈ c.pending)
    (hshare : c.state.registry.NotShare denom) :
    if c.completes h then
      (after (runDeferred h) c).backing denom =
        c.backing denom - c.shortfall denom (.runDeferred h)
    else c.backing denom ≤ (after (runDeferred h) c).backing denom := by
  obtain ⟨p, hstored, -⟩ := hs.queue.waiting h hh
  obtain ⟨hm, hp⟩ := hs.matches_waiting hh p hstored
  rcases after_runDeferred h c with ⟨hruns, hc⟩ | ⟨hfails, c', hd, heq⟩
  · have hconsumed := hs.consumed hh hc
    have hpending := pendingDeposits_erase _ hstored hconsumed.provisions denom
    cases hc with
    | completed went traded waiting complete moved books =>
        rename_i q o o' p'
        obtain rfl : p = p' := Option.some.inj (hstored.symm.trans waiting)
        have hcompletes : c.completes h = true := by rw [completes, went, hruns]; rfl
        have hsurplus := surplus_of_completed traded complete moved books hs.registry hs.collector
          hshare hm hp
        have hshort : c.shortfall denom (.runDeferred h) =
            Coin.total denom [⟨p.askDenom, p.expectedReturn⟩] -
              Coin.total denom [⟨p.askDenom, q.returned⟩] := by
          simp only [shortfall, hcompletes, ite_true, hstored, traded.currentReturn_eq,
            Coin.total_singleton]
          split <;> omega
        rw [if_pos hcompletes, backing, backing, hpending, hsurplus, hshort]
        omega
    | refunded failed waiting moved books =>
        rename_i p'
        obtain rfl : p = p' := Option.some.inj (hstored.symm.trans waiting)
        have hcompletes : ¬c.completes h = true := by
          rw [completes, failed]
          exact Bool.false_ne_true
        have hsurplus := surplus_of_refunded hp moved books denom
        rw [if_neg hcompletes, backing, backing, hpending, hsurplus]
        omega
  · have hcompletes : ¬c.completes h = true := by
      rw [completes, hfails, Bool.and_false]
      exact Bool.false_ne_true
    have hsurplus : (c'.rollback c.state).surplus denom = c.surplus denom :=
      surplus_rollback rfl rfl
    have hwhole := hp.wholeOffer_nonneg denom
    rw [if_neg hcompletes, heq, backing, backing, hsurplus]
    have hpending := pendingDeposits_erase (c'.rollback c.state) hstored hd.provisions denom
    omega

/-- What an event costs is its shortfall, and an event without one costs nothing. -/
theorem backing_after (hs : c.Sound) (hmanual : c.autoConfirm = false) {e : Event}
    (he : c.Orderly e) (hshare : c.state.registry.NotShare denom) :
    (after (perform e) c).backing denom = c.backing denom - c.shortfall denom e ∨
      (c.shortfall denom e = 0 ∧ c.backing denom ≤ (after (perform e) c).backing denom) := by
  cases he with
  | execute sender_ne funds_valid pays =>
      rename_i sender funds op
      left
      rw [after_perform_execute, shortfall, Int.sub_zero]
      rcases after_execute sender funds op c with h | ⟨c', h, heq⟩
      · have hcall := nextCall_fromUser (c := c) sender_ne funds_valid
        have hbacking := backing_of_transacted h hs.counted hmanual hcall pays hshare
        exact hbacking
      · have hprovisions : c'.state.provisions = c.state.provisions := h.provisions
        have hpending := pendingDeposits_congr c (c'.rollback c.state) hprovisions denom
        have hsurplus : (c'.rollback c.state).surplus denom = c.surplus denom :=
          surplus_rollback rfl rfl
        rw [heq, backing, backing, hsurplus, hpending]
  | runDeferred waiting =>
      rename_i h
      have hrun := backing_after_runDeferred hs waiting hshare
      rw [after_perform_runDeferred]
      split at hrun
      · exact .inl hrun
      · rename_i hcompletes
        exact .inr ⟨by rw [shortfall, if_neg hcompletes], hrun⟩
  | fund address_ne coins_valid =>
      rename_i address coins
      left
      have hsurplus := surplus_after_fund address_ne coins c denom
      have hpending := pendingDeposits_congr c _ (sameBooks_fund address coins c).provisions denom
      rw [backing, backing, hsurplus, hpending, shortfall, Int.sub_zero]
  | addPool valid added =>
      rename_i pool
      right
      obtain ⟨c', hadd⟩ := added
      have hafter : after (perform (.addPool pool)) c = c' := after_eq_of_ok hadd
      have hsurplus := surplus_of_addPool valid hadd denom
      have hpending := pendingDeposits_congr c c' (added_of_addPool hadd).1.provisions denom
      have hold : 0 ≤ c.state.registry.measureAt (fun p => p.reserve denom) pool.identifier := by
        rw [Table.measureAt]
        cases hget : c.state.registry.get? pool.identifier with
        | none => exact Int.le_refl 0
        | some old => exact Pool.reserve_nonneg (hs.registry _ _ hget).2 denom
      refine ⟨rfl, ?_⟩
      rw [hafter, backing, backing, hsurplus, hpending]
      omega

/-- A solvent chain stays solvent exactly if its backing covers the shortfall of the event. -/
theorem solvent_after_iff (hs : c.Sound) (hmanual : c.autoConfirm = false) {e : Event}
    (he : c.Orderly e) (hshare : c.state.registry.NotShare denom) (hsolvent : c.Solvent denom) :
    (after (perform e) c).Solvent denom ↔ c.shortfall denom e ≤ c.backing denom := by
  rw [solvent_iff] at hsolvent ⊢
  rcases backing_after hs hmanual he hshare with h | ⟨h, hle⟩
  · rw [h]
    omega
  · rw [h]
    omega

/-! ## Runs -/

/-- The chain is solvent before, between and after the events. -/
def SolventThroughout (c : Chain) (denom : String) : List Event → Prop
  | [] => c.Solvent denom
  | e :: rest => c.Solvent denom ∧ (after (perform e) c).SolventThroughout denom rest

instance decidableSolventThroughout (c : Chain) (denom : String) :
    (events : List Event) → Decidable (c.SolventThroughout denom events)
  | [] => inferInstanceAs (Decidable (c.Solvent denom))
  | e :: rest =>
    let _ := decidableSolventThroughout (after (perform e) c) denom rest
    inferInstanceAs (Decidable (_ ∧ _))

/-- At each event the backing covers its shortfall. -/
def CoveredThroughout (c : Chain) (denom : String) : List Event → Prop
  | [] => True
  | e :: rest =>
    c.shortfall denom e ≤ c.backing denom ∧ (after (perform e) c).CoveredThroughout denom rest

theorem solventThroughout_iff_of_sound {events : List Event} (hs : c.Sound)
    (hmanual : c.autoConfirm = false) (h : c.OrderlyRun events)
    (hshare : c.state.registry.NotShare denom)
    (hadded : ∀ pool, .addPool pool ∈ events → pool.lpDenom ≠ denom) (hsolvent : c.Solvent denom) :
    c.SolventThroughout denom events ↔ c.CoveredThroughout denom events := by
  induction events generalizing c with
  | nil => exact ⟨fun _ => trivial, fun _ => hsolvent⟩
  | cons e rest ih =>
      have hstep := solvent_after_iff hs hmanual h.1 hshare hsolvent
      have hnext := sound_after hs h.1
      have hauto := (settings_after hs h.1).autoConfirm.trans hmanual
      have hshareNext := notShare_after hs h.1 hshare fun pool he =>
        hadded pool (he ▸ List.mem_cons_self)
      have hrest := ih hnext hauto h.2 hshareNext
        fun pool hp => hadded pool (List.mem_cons_of_mem e hp)
      constructor
      · rintro ⟨-, hthroughout⟩
        have hafter : (after (perform e) c).Solvent denom := by
          cases rest with
          | nil => exact hthroughout
          | cons e' rest' => exact hthroughout.1
        exact ⟨hstep.1 hafter, (hrest hafter).1 hthroughout⟩
      · rintro ⟨hcovered, hthroughout⟩
        have hafter := hstep.2 hcovered
        exact ⟨hsolvent, (hrest hafter).2 hthroughout⟩

/-- On a chain whose swaps wait, the manager holds in every state of a run what its pools record of
a denom and what is pending, exactly if at each event the backing so far covers the shortfall: only
the completion of a deposit has one, as far as its trade returns less than its first phase
expected. -/
theorem solventThroughout_iff_coveredThroughout {config : Config}
    (hcollector : config.feeCollector ≠ managerAddress) {events : List Event}
    (hrun : (empty config false).OrderlyRun events)
    (hdenom : ∀ pool, .addPool pool ∈ events → pool.lpDenom ≠ denom) :
    (empty config false).SolventThroughout denom events ↔
      (empty config false).CoveredThroughout denom events := by
  have hs := sound_empty hcollector false
  have hempty : (empty config false).state.registry.NotShare denom := fun _ _ hp => nomatch hp
  exact solventThroughout_iff_of_sound hs rfl hrun hempty hdenom (Int.le_refl 0)

/-! ## A deposit that is crossed

A swap in the same pool takes out what the half-swap was to return, and a swap in another pool of
the same assets brings as much back. The manager's balances look as if nothing had happened. -/

def firstPool : Pool where
  identifier := "o.first"
  assets := [⟨"uom", 10000⟩, ⟨"uusd", 10000⟩]
  curve := .constantProduct
  lpDenom := "factory/first"
  fees := {}
  decimals := [6, 6]

def secondPool : Pool where
  identifier := "o.second"
  assets := [⟨"uom", 12500⟩, ⟨"uusd", 8000⟩]
  curve := .constantProduct
  lpDenom := "factory/second"
  fees := {}
  decimals := [6, 6]

/-- The widest spread that an order may allow. -/
def half : Ratio := ⟨500000000000000000⟩

def crossedRun : List Event :=
  [ .addPool firstPool, .addPool secondPool,
    .fund "alice" [⟨"uom", 4000⟩], .fund "bob" [⟨"uom", 2500⟩],
    .execute "alice" [⟨"uom", 4000⟩] (.deposit { pool := "o.first", maxSpread := some half }),
    .execute "bob" [⟨"uom", 2500⟩]
      (.swap { pool := "o.first", askDenom := "uusd", maxSpread := some half }),
    .execute "bob" [⟨"uusd", 2000⟩]
      (.swap { pool := "o.second", askDenom := "uom", maxSpread := some half }),
    .runDeferred ⟨"tx-1", "o.first", ⟨"uom", 2000⟩, "uusd", some half⟩ ]

theorem orderlyRun_crossedRun : (empty {} false).OrderlyRun crossedRun := by
  refine ⟨.addPool (by decide) ⟨_, rfl⟩, .addPool (by decide) ⟨_, rfl⟩,
    .fund (by decide) (by decide), .fund (by decide) (by decide),
    .execute (by decide) (by decide) trivial, .execute (by decide) (by decide) ?_,
    .execute (by decide) (by decide) ?_, .runDeferred ?_, trivial⟩
  · decide
  · decide
  · decide +kernel

theorem not_coveredThroughout_crossedRun :
    ¬(empty {} false).CoveredThroughout "uusd" crossedRun := by
  have hdenom : ∀ pool, .addPool pool ∈ crossedRun → pool.lpDenom ≠ "uusd" := by
    intro pool hp
    simp only [crossedRun, List.mem_cons, reduceCtorEq, List.not_mem_nil, or_false,
      Event.addPool.injEq] at hp
    rcases hp with rfl | rfl <;> decide
  have hiff := solventThroughout_iff_coveredThroughout (by decide) orderlyRun_crossedRun hdenom
  have hinsolvent : ¬(empty {} false).SolventThroughout "uusd" crossedRun := by decide +kernel
  exact fun h => hinsolvent (hiff.2 h)

/-- Users alone can bring the manager to hold less than its pools record. -/
theorem insolvent_after_crossedRun :
    (empty {} false).OrderlyRun crossedRun ∧ ¬(run crossedRun (empty {} false)).Solvent "uusd" :=
  ⟨orderlyRun_crossedRun, by decide +kernel⟩

end MarketMaker.Chain
