import MarketMaker.Proofs.Fault
import MarketMaker.Proofs.Operation.Basic

/-! # What the swap of a provision and its confirmation do

A half-swap that is run is traded or undone; its confirmation then completes the deposit or pays it
back. Runs that fail keep the terms of the chain. -/

namespace MarketMaker.Chain

open Ledger

/-! ## Terms that a failure keeps -/

/-- The settings and the count of transactions do not differ. -/
structure SameTerms (c c' : Chain) : Prop where
  config : c'.state.config = c.state.config
  autoConfirm : c'.autoConfirm = c.autoConfirm
  transactions : c'.transactions = c.transactions

theorem SameTerms.trans {c c' c'' : Chain} (h : c.SameTerms c') (h' : c'.SameTerms c'') :
    c.SameTerms c'' :=
  ⟨h'.config.trans h.config, h'.autoConfirm.trans h.autoConfirm,
    h'.transactions.trans h.transactions⟩

theorem SameBooks.sameTerms {c c' : Chain} (h : c.SameBooks c') : c.SameTerms c' :=
  ⟨h.config, h.autoConfirm, h.transactions⟩

/-! ## The trade -/

theorem receiver_halfSwap (h : HalfSwap) :
    (halfSwapCall h).receiver (halfSwapOrder h).receiver = managerAddress := by
  simp [halfSwapCall, halfSwapOrder, Call.receiver, managerAddress, Option.filter]

/-- A half-swap that was traded. -/
structure Traded (h : HalfSwap) (c c' : Chain) (pool : Pool) (sides : AssetPair) (q : SwapQuote)
    (o : Outcome) : Prop where
  fills : (halfSwapOrder h).Fills c.state (halfSwapCall h) h.offer pool sides q o
  moved : c.state.ledger.Moved c'.state.ledger (Effect.gains o.settlement.effects)
    (Effect.issues o.settlement.effects)
  books : SameBooks { c with state := c.state.savePool o.pool } c'

theorem trade_eq (h : HalfSwap) (c : Chain) :
    trade h c =
      match (halfSwapOrder h).run (halfSwapCall h) c.state with
      | .ok o s => applyEffects o.settlement.effects { c with state := s }
      | .error e s => .error e { c with state := s } := by
  simp only [trade, bind, EStateM.bind, withState]
  cases (halfSwapOrder h).run (halfSwapCall h) c.state <;> rfl

theorem trade_eq_ok {h : HalfSwap} {c c' : Chain} {u : Unit} : trade h c = .ok u c' ↔
    ∃ o, (halfSwapOrder h).run (halfSwapCall h) c.state = .ok o (c.state.savePool o.pool) ∧
      applyEffects o.settlement.effects { c with state := c.state.savePool o.pool } = .ok u c' := by
  simp only [trade, Action.bind_eq_ok, withState_eq_ok]
  constructor
  · rintro ⟨o, _, ⟨s, hrun, rfl⟩, heffects⟩
    obtain rfl := SwapOrder.state_of_run hrun
    exact ⟨o, hrun, heffects⟩
  · rintro ⟨o, hrun, heffects⟩
    exact ⟨o, _, ⟨_, hrun, rfl⟩, heffects⟩

theorem traded_of_trade {h : HalfSwap} {c c' : Chain} {u : Unit} (ht : trade h c = .ok u c') :
    ∃ pool sides q o, Traded h c c' pool sides q o := by
  obtain ⟨o, hrun, heffects⟩ := trade_eq_ok.1 ht
  obtain ⟨offer, pool, sides, q, hfills⟩ := SwapOrder.fills_of_run hrun
  obtain rfl : h.offer = offer := List.singleton_inj.1 hfills.funds
  have hmoved := moved_of_applyEffects heffects
  exact ⟨pool, sides, q, o, hfills, hmoved, sameBooks_of_applyEffects heffects⟩

theorem tryTrade_eq_ok {h : HalfSwap} {c c' : Chain} :
    tryTrade h c = .ok true c' ↔ trade h c = .ok () c' := by
  unfold tryTrade
  cases trade h c with
  | ok u d => simp
  | error e d => cases e <;> simp

/-- A trade that fails changes ledger and pools at most. -/
theorem books_of_trade_error {h : HalfSwap} {c c' : Chain} {e : Failure}
    (ht : trade h c = .error e c') : c.SameBooks (c'.rollback c.state) := by
  have hafter : after (trade h) c = c' := by simp only [after, ht]
  rw [← hafter, after, trade_eq]
  cases hrun : (halfSwapOrder h).run (halfSwapCall h) c.state with
  | error e s =>
      obtain rfl := SwapOrder.keepsOnError_run _ _ _ _ _ hrun
      exact ⟨rfl, rfl, rfl, rfl, rfl, rfl⟩
  | ok o s =>
      obtain rfl := SwapOrder.state_of_run hrun
      have hbooks := sameBooks_applyEffects o.settlement.effects
        { c with state := c.state.savePool o.pool }
      exact ⟨hbooks.config, rfl, hbooks.provisions, hbooks.autoConfirm, hbooks.pending,
        hbooks.transactions⟩

/-- What an attempted trade leaves: a trade, or a chain with the same books and the same ledger. -/
inductive Attempted (h : HalfSwap) (c c' : Chain) : Bool → Prop
  | traded {pool : Pool} {sides : AssetPair} {q : SwapQuote} {o : Outcome}
      (went : Action.succeeds (trade h) c = true) (traded : Traded h c c' pool sides q o) :
      Attempted h c c' true
  | undone (failed : Action.succeeds (trade h) c = false) (books : c.SameBooks c')
      (ledger : c'.state.ledger = c.state.ledger) : Attempted h c c' false

theorem attempted_of_tryTrade {h : HalfSwap} {c c' : Chain} {success : Bool}
    (ht : tryTrade h c = .ok success c') : Attempted h c c' success := by
  unfold tryTrade at ht
  split at ht
  · rename_i hok
    cases ht
    obtain ⟨pool, sides, q, o, htraded⟩ := traded_of_trade hok
    exact .traded (Action.succeeds_of_ok hok) htraded
  · rename_i herror
    cases ht
    exact .undone (Action.succeeds_of_error herror) (books_of_trade_error herror) rfl
  · cases ht

/-! ## The confirmation -/

/-- What a half-swap that was run leaves: a completed deposit, or one that was paid back. -/
inductive Confirmed (h : HalfSwap) (c c' : Chain) : Prop
  | completed {c₁ : Chain} {pool : Pool} {sides : AssetPair} {q : SwapQuote} {o o' : Outcome}
      {p : Provision}
      (went : Action.succeeds (trade h) { c with pending := c.pending.erase h } = true)
      (traded : Traded h { c with pending := c.pending.erase h } c₁ pool sides q o)
      (waiting : c.state.provisions.get? h.provision = some p)
      (complete : p.complete h.provision (Confirmation.taken c₁.state h.provision) =
        .ok o' ((Confirmation.taken c₁.state h.provision).savePool o'.pool))
      (moved : c₁.state.ledger.Moved c'.state.ledger (Effect.gains o'.settlement.effects)
        (Effect.issues o'.settlement.effects))
      (books : SameBooks
        { c₁ with state := (Confirmation.taken c₁.state h.provision).savePool o'.pool } c')
  | refunded {p : Provision}
      (failed : Action.succeeds (trade h) { c with pending := c.pending.erase h } = false)
      (waiting : c.state.provisions.get? h.provision = some p)
      (moved : c.state.ledger.Moved c'.state.ledger
        (Effect.gains (p.refund h.provision).effects) (fun _ => 0))
      (books : SameBooks
        { c with
          pending := c.pending.erase h, state := Confirmation.taken c.state h.provision } c')

theorem runHalfSwap_eq_ok {h : HalfSwap} {c c' : Chain} {settlement : Settlement} :
    runHalfSwap h c = .ok settlement c' ↔ ∃ success c₁ s,
      tryTrade h { c with pending := c.pending.erase h } = .ok success c₁ ∧
        Confirmation.run ⟨h.provision, success⟩ c₁.state = .ok settlement s ∧
          applyEffects settlement.effects { c₁ with state := s } = .ok () c' := by
  simp only [runHalfSwap, confirm, Action.bind_eq_ok, Action.modify_eq_ok, withState_eq_ok,
    Action.pure_eq_ok]
  constructor
  · rintro ⟨_, _, rfl, success, c₁, htry, answer, _, ⟨s, htaken, rfl⟩, _, _, heffects, rfl, rfl⟩
    exact ⟨success, c₁, s, htry, htaken, heffects⟩
  · rintro ⟨success, c₁, s, htry, htaken, heffects⟩
    exact ⟨⟨⟩, _, rfl, success, c₁, htry, settlement, _, ⟨s, htaken, rfl⟩, (), c', heffects, rfl,
      rfl⟩

theorem confirmed_of_runHalfSwap {h : HalfSwap} {c c' : Chain} {settlement : Settlement}
    (hrun : runHalfSwap h c = .ok settlement c') : Confirmed h c c' := by
  obtain ⟨success, c₁, s, htry, htaken, heffects⟩ := runHalfSwap_eq_ok.1 hrun
  have hmoved := moved_of_applyEffects heffects
  have hbooks := sameBooks_of_applyEffects heffects
  cases Confirmation.taken_of_run htaken with
  | completed hsuccess waiting complete =>
      dsimp only at hsuccess
      subst hsuccess
      cases attempted_of_tryTrade htry with
      | traded went traded =>
          have hwaiting := traded.books.provisions ▸ waiting
          exact .completed went traded hwaiting complete hmoved hbooks
  | refunded hfailure waiting =>
      dsimp only at hfailure
      subst hfailure
      cases attempted_of_tryTrade htry with
      | undone failed books ledger =>
          have hwaiting := books.provisions ▸ waiting
          rename_i p
          have hledger : c.state.ledger.Moved c'.state.ledger
              (Effect.gains (p.refund h.provision).effects) (fun _ => 0) := ledger ▸ hmoved
          refine .refunded failed hwaiting hledger ?_
          exact ⟨hbooks.config.trans books.config, hbooks.registry.trans books.registry,
            hbooks.provisions.trans (congrArg (·.erase h.provision) books.provisions),
            hbooks.autoConfirm.trans books.autoConfirm, hbooks.pending.trans books.pending,
            hbooks.transactions.trans books.transactions⟩

/-! ## Runs that fail -/

theorem confirm_eq (confirmation : Confirmation) (c : Chain) :
    confirm confirmation c =
      match confirmation.run c.state with
      | .ok settlement s =>
        (do
          applyEffects settlement.effects
          pure settlement) { c with state := s }
      | .error e s => .error e { c with state := s } := by
  simp only [confirm, bind, EStateM.bind, withState]
  cases confirmation.run c.state <;> rfl

/-- What the run of a half-swap keeps, however it ends: the terms, the rest of the queue, and every
other provision. -/
structure Dropped (h : HalfSwap) (c c' : Chain) : Prop where
  terms : c.SameTerms c'
  pending : c'.pending = c.pending.erase h
  provisions : c'.state.provisions = c.state.provisions.erase h.provision

theorem Confirmed.dropped {h : HalfSwap} {c c' : Chain} (hc : Confirmed h c c') :
    Dropped h c c' := by
  cases hc with
  | completed went traded waiting complete moved books =>
      have hb := traded.books
      exact ⟨⟨books.config.trans hb.config, books.autoConfirm.trans hb.autoConfirm,
        books.transactions.trans hb.transactions⟩, books.pending.trans hb.pending,
        books.provisions.trans (congrArg (·.erase h.provision) hb.provisions)⟩
  | refunded failed waiting moved books =>
      exact ⟨⟨books.config, books.autoConfirm, books.transactions⟩, books.pending,
        books.provisions⟩

theorem dropped_of_confirm_error {h : HalfSwap} {success : Bool} {c c' : Chain} {e : Failure}
    (hc : confirm ⟨h.provision, success⟩ c = .error e c') :
    c.SameTerms c' ∧ c'.pending = c.pending ∧
      c'.state.provisions = c.state.provisions.erase h.provision := by
  rw [confirm_eq] at hc
  cases hrun : Confirmation.run ⟨h.provision, success⟩ c.state with
  | error e s =>
      simp only [hrun] at hc
      cases hc
      rw [Confirmation.state_of_error hrun]
      exact ⟨⟨rfl, rfl, rfl⟩, rfl, rfl⟩
  | ok settlement s =>
      simp only [hrun] at hc
      have hbooks := sameBooks_bind (f := fun _ => pure settlement)
        (sameBooks_applyEffects settlement.effects { c with state := s })
        fun _ c' => sameBooks_pure settlement c'
      rw [after, hc] at hbooks
      have hs : s.config = c.state.config ∧
          s.provisions = c.state.provisions.erase h.provision := by
        cases Confirmation.taken_of_run hrun with
        | completed => exact ⟨rfl, rfl⟩
        | refunded => exact ⟨rfl, rfl⟩
      exact ⟨⟨hbooks.config.trans hs.1, hbooks.autoConfirm, hbooks.transactions⟩, hbooks.pending,
        hbooks.provisions.trans hs.2⟩

/-- A run that fails does so after its trade was made or undone, when the deposit is confirmed. -/
theorem exists_confirm_error {h : HalfSwap} {c c' : Chain} {e : Failure}
    (hrun : runHalfSwap h c = .error e c') : ∃ success c₁,
      tryTrade h { c with pending := c.pending.erase h } = .ok success c₁ ∧
        confirm ⟨h.provision, success⟩ c₁ = .error e c' := by
  obtain ⟨success, c₁, htry⟩ := exists_tryTrade h { c with pending := c.pending.erase h }
  rw [runHalfSwap, Action.modify_bind] at hrun
  simp only [bind, EStateM.bind, htry] at hrun
  exact ⟨success, c₁, htry, hrun⟩

theorem dropped_of_runHalfSwap_error {h : HalfSwap} {c c' : Chain} {e : Failure}
    (hrun : runHalfSwap h c = .error e c') : Dropped h c c' := by
  obtain ⟨success, c₁, htry, hconfirm⟩ := exists_confirm_error hrun
  obtain ⟨hterms, hpending, hprovisions⟩ := dropped_of_confirm_error hconfirm
  cases attempted_of_tryTrade htry with
  | traded _ traded =>
      have hb := traded.books
      exact ⟨SameTerms.trans ⟨hb.config, hb.autoConfirm, hb.transactions⟩ hterms,
        hpending.trans hb.pending, hprovisions.trans (congrArg (·.erase h.provision) hb.provisions)⟩
  | undone _ hb _ =>
      exact ⟨SameTerms.trans ⟨hb.config, hb.autoConfirm, hb.transactions⟩ hterms,
        hpending.trans hb.pending, hprovisions.trans (congrArg (·.erase h.provision) hb.provisions)⟩

end MarketMaker.Chain
