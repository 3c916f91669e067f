import MarketMaker.Proofs.Chain.Delivery
import MarketMaker.Proofs.Chain.Reachable
import MarketMaker.Proofs.Solvency

/-! # How the run of a waiting half-swap ends

The run of a half-swap that waits uses up its provision in any case. The depositor gets shares for
the deposit, or the deposit back; or the run fails, and then the deposit stays where it is although
nothing records it any more. -/

namespace MarketMaker.Chain

open Ledger

variable {c c₁ c' : Chain}

/-! ## The queue along a run -/

/-- Half-swaps are run while they wait, or when their provision is gone. -/
def Serves (c : Chain) : Event → Prop
  | .runDeferred h => h ∈ c.pending ∨ c.state.provisions.get? h.provision = none
  | .execute .. | .fund .. | .addPool _ => True

instance (c : Chain) (e : Event) : Decidable (c.Serves e) :=
  match e with
  | .runDeferred h =>
    inferInstanceAs (Decidable (h ∈ c.pending ∨ c.state.provisions.get? h.provision = none))
  | .execute .. | .fund .. | .addPool _ => inferInstanceAs (Decidable True)

/-- Events that serve the queue as it is when they happen. -/
def ServedRun (c : Chain) : List Event → Prop
  | [] => True
  | e :: rest => c.Serves e ∧ (after (perform e) c).ServedRun rest

instance decidableServedRun (c : Chain) : (events : List Event) → Decidable (c.ServedRun events)
  | [] => inferInstanceAs (Decidable True)
  | e :: rest =>
    let _ := decidableServedRun (after (perform e) c) rest
    inferInstanceAs (Decidable (_ ∧ _))

/-- A chain on which half-swaps wait, each with a provision of its own. -/
structure Waits (c : Chain) : Prop where
  manual : c.autoConfirm = false
  paired : Paired c.state.provisions c.pending

theorem SameBooks.waits (h : c.SameBooks c') (hw : c.Waits) : c'.Waits :=
  ⟨h.autoConfirm.trans hw.manual, by rw [h.provisions, h.pending]; exact hw.paired⟩

theorem waits_after_execute (hsound : c.state.registry.Sound) (hw : c.Waits) (sender : String)
    (funds : List Coin) (op : Operation) : (after (execute sender funds op) c).Waits := by
  rcases delivered_after_execute sender funds op c with h | ⟨c', h, heq⟩
  · refine ⟨h.terms.autoConfirm.trans hw.manual, ?_⟩
    cases h with
    | settled paid settles carried books =>
        rw [books.provisions, books.pending]
        exact hw.paired
    | queued paid begins manual eq =>
        rename_i st
        have hid := Transacted.swap_provision begins
        have hfresh : c.state.provisions.get? st.swap.provision = none := hid ▸ begins.fresh
        have happend := hw.paired.append hfresh (begins.matches_swap hsound)
        rw [hid] at happend
        rw [eq]
        exact happend
    | finished paid begins auto finished dropped =>
        have hauto : c.autoConfirm = true := auto
        rw [hw.manual] at hauto
        cases hauto
  · rw [heq]
    refine ⟨h.terms.autoConfirm.trans hw.manual, ?_⟩
    have hpending : c'.pending = c.pending := by
      rcases h.pending with hsame | ⟨hauto, -⟩
      · exact hsame
      · have hauto : c.autoConfirm = true := hauto
        rw [hw.manual] at hauto
        cases hauto
    dsimp only [rollback]
    rw [h.provisions, hpending]
    exact hw.paired

theorem waits_after_runDeferred (hw : c.Waits) {h : HalfSwap} (hs : c.Serves (.runDeferred h)) :
    (after (runDeferred h) c).Waits := by
  have hdropped := dropped_after_runDeferred h c
  refine ⟨hdropped.terms.autoConfirm.trans hw.manual, ?_⟩
  rw [hdropped.provisions, hdropped.pending]
  apply hw.paired.erase_of_ne
  intro x hx
  rcases hs with hwaits | hgone
  · exact hw.paired.provision_ne hwaits hx
  · intro he
    obtain ⟨p, hp, -⟩ := hw.paired.waiting x (List.mem_of_mem_erase hx)
    rw [he, hp] at hgone
    cases hgone

theorem waits_after (hsound : c.state.registry.Sound) (hw : c.Waits) {e : Event}
    (hs : c.Serves e) : (after (perform e) c).Waits := by
  cases e with
  | execute sender funds op =>
      rw [after_perform_execute]
      exact waits_after_execute hsound hw sender funds op
  | runDeferred h =>
      rw [after_perform_runDeferred]
      exact waits_after_runDeferred hw hs
  | fund address coins => exact (sameBooks_fund address coins c).waits hw
  | addPool pool =>
      rw [after_perform_addPool]
      exact (sameBooks_withLedger _ _).waits ⟨hw.manual, hw.paired⟩

theorem waits_run {events : List Event} (hr : c.Reachable) (he : ∀ e ∈ events, e.Valid)
    (hw : c.Waits) (hs : c.ServedRun events) : (run events c).Waits := by
  induction events generalizing c with
  | nil => exact hw
  | cons e rest ih =>
      rw [List.forall_mem_cons] at he
      exact ih (.step hr he.1) he.2 (waits_after hr.regular.registry hw hs.1) hs.2

theorem waits_empty (config : Config) : (empty config false).Waits := ⟨rfl, .nil _⟩

/-! ## Shares that are delivered -/

/-- The shares of a deposit reach its receiver, or a position of the receiver. -/
inductive Reaches (p : Provision) (shares : Coin) (c c' : Chain) : Prop
  | free (unlocked : p.request.unlockingDuration = none)
      (gained : c.state.ledger.balance p.receiver shares.denom + shares.amount ≤
        c'.state.ledger.balance p.receiver shares.denom)
  | locked {name : String} {sum : Coin} {duration : Int}
      (asked : p.request.unlockingDuration = some duration)
      (sum_eq : lockedAsset (c.state.ledger.position? name) shares = .ok sum)
      (position : c'.state.ledger.position? name = some ⟨name, p.receiver, sum, duration⟩)
      (gained : c.state.ledger.balance c.state.config.farmManager shares.denom + shares.amount ≤
        c'.state.ledger.balance c.state.config.farmManager shares.denom)

theorem gained_of_accepted {d : Deposit} {s : State} {pool : Pool} {deposits balances : List Int}
    {share : Int} {issued : List Effect} {o : Outcome}
    (h : d.Accepted s pool deposits balances share issued o)
    (hcarried : Carried o.settlement.effects c c') :
    c.state.ledger.balance (d.holder s.config) pool.lpDenom + share ≤
      c'.state.ledger.balance (d.holder s.config) pool.lpDenom := by
  have hgains := h.single_le_gains (d.holder s.config) pool.lpDenom
  rw [single, if_pos ⟨rfl, rfl⟩] at hgains
  rw [hcarried.moved.balance]
  exact Int.add_le_add_left hgains _

theorem reaches_of_accepted {p : Provision} {s : State} {pool : Pool}
    {deposits balances : List Int} {share : Int} {issued : List Effect} {o : Outcome}
    (h : p.completion.Accepted s pool deposits balances share issued o)
    (hconfig : s.config = c.state.config) (hcarried : Carried o.settlement.effects c c') :
    Reaches p ⟨pool.lpDenom, share⟩ c c' := by
  have hgained := gained_of_accepted h hcarried
  have hshelved := h.locks_eq ▸ hcarried.shelved
  cases hduration : p.request.unlockingDuration with
  | none =>
      have hholder : p.completion.holder s.config = p.receiver := by
        simp [Deposit.holder, Provision.completion, hduration]
      rw [hholder] at hgained
      exact .free hduration hgained
  | some duration =>
      have hholder : p.completion.holder s.config = c.state.config.farmManager := by
        simp [Deposit.holder, Provision.completion, hduration, hconfig]
      have hlock : p.completion.lock? pool share =
          some ⟨p.receiver, ⟨pool.lpDenom, share⟩, p.request.lockIdentifier, duration⟩ := by
        simp [Deposit.lock?, Provision.completion, hduration]
      rw [hlock] at hshelved
      obtain ⟨sum, hlocked⟩ := Shelved.single hshelved
      rw [hholder] at hgained
      refine .locked hduration hlocked.sum_eq ?_ hgained
      rw [position?, hlocked.positions, Table.get?_put, if_pos rfl]

/-! ## The ending -/

/-- How the run of a half-swap ends for the provision that waits for it. -/
inductive Ending (h : HalfSwap) (p : Provision) (c c' : Chain) : Prop
  | issued {c₁ : Chain} {pool : Pool} {share : Int}
      (returned : Action.succeeds (runDeferred h) c = true)
      (went : trade h { c with pending := c.pending.erase h } = .ok () c₁)
      (stored : c₁.state.registry.get? p.request.pool = some pool) (share_pos : 0 < share)
      (reaches : Reaches p ⟨pool.lpDenom, share⟩ c₁ c')
  | refunded
      (returned : Action.succeeds (runDeferred h) c = true)
      (undone : Action.succeeds (trade h) { c with pending := c.pending.erase h } = false)
      (moved : c.state.ledger.Moved c'.state.ledger
        (fun a d => gainOf p.sender [p.wholeOffer] a d - gainOf managerAddress [p.wholeOffer] a d)
        (fun _ => 0))
      (registry_eq : c'.state.registry = c.state.registry)
  | stranded
      (raised : Action.succeeds (runDeferred h) c = false)
      (cause : Action.succeeds (trade h) { c with pending := c.pending.erase h } = true ∨
        c.state.held p.offerDenom < p.wholeOffer.amount)
      (ledger_eq : c'.state.ledger = c.state.ledger)
      (registry_eq : c'.state.registry = c.state.registry)

/-- A run fails after its trade went through, or because the deposit cannot be paid back. -/
theorem cause_of_runHalfSwap_error {h : HalfSwap} {p : Provision} {e : Failure}
    (hledger : c.state.ledger.Sound) (hp : c.state.provisions.get? h.provision = some p)
    (hrun : runHalfSwap h c = .error e c') :
    Action.succeeds (trade h) { c with pending := c.pending.erase h } = true ∨
      c.state.held p.offerDenom < p.wholeOffer.amount := by
  obtain ⟨success, c₁, htry, hconfirm⟩ := exists_confirm_error hrun
  cases attempted_of_tryTrade htry with
  | traded went traded => exact .inl went
  | undone failed books ledger =>
      right
      by_contra hle
      -- With the chain as it was before the trade, the refund is a transfer of what there is.
      have hprovisions : c₁.state.provisions.get? h.provision = some p := by
        rw [books.provisions]
        exact hp
      have hsound : c₁.state.ledger.Sound := by
        rw [ledger]
        exact hledger
      have hheld : p.wholeOffer.amount ≤ c₁.state.ledger.balance managerAddress p.offerDenom := by
        rw [ledger]
        exact Int.not_lt.1 hle
      obtain ⟨l, hl⟩ := hsound.exists_transfer (c := p.wholeOffer) p.sender hheld
      have hconfirmed : Confirmation.run ⟨h.provision, false⟩ c₁.state =
          .ok (p.refund h.provision) (Confirmation.taken c₁.state h.provision) := by
        rw [Confirmation.run_eq]
        simp [hprovisions]
      rw [confirm_eq, hconfirmed] at hconfirm
      simp [Provision.refund, applyEffects, applyEffect, bind, EStateM.bind, withLedger,
        Confirmation.taken, hl, pure, EStateM.pure] at hconfirm

theorem ending_of_waiting {h : HalfSwap} {p : Provision} (hledger : c.state.ledger.Sound)
    (hp : c.state.provisions.get? h.provision = some p) :
    Ending h p c (after (runDeferred h) c) := by
  cases hreturned : Action.succeeds (runDeferred h) c with
  | true =>
      obtain ⟨settlement, hok⟩ := exists_ok_after hreturned
      obtain ⟨p', hp', hfinished⟩ := finished_of_runHalfSwap (atomically_eq_ok.1 hok)
      obtain rfl : p = p' := Option.some.inj (hp.symm.trans hp')
      cases hfinished with
      | completed went fills traded config_eq stored accepted carried =>
          exact .issued hreturned went stored accepted.share_pos
            (reaches_of_accepted accepted rfl carried)
      | refunded failed carried registry_eq =>
          refine .refunded hreturned failed (carried.moved.congr ?_ fun d => rfl) registry_eq
          exact fun a d => p.gains_refund h.provision a d
  | false =>
      obtain ⟨e, herror⟩ := exists_error_after hreturned
      obtain ⟨c', hrun, heq⟩ := atomically_eq_error.1 herror
      refine .stranded hreturned (cause_of_runHalfSwap_error hledger hp hrun) ?_ ?_
      · rw [heq]
        rfl
      · rw [heq]
        rfl

/-- Whatever users have done while a half-swap waited, its run uses up its provision, and it ends in
one of three ways: shares for the deposit reach the receiver; the sender has the whole deposit back;
or the run fails, because the second phase does although the trade went through, or because the
manager holds less than the deposit that it should pay back. Then ledger and pools are as before. -/
theorem ending_of_served {config : Config} {events : List Event}
    (hvalid : ∀ e ∈ events, e.Valid) (hserved : (empty config false).ServedRun events)
    {h : HalfSwap} (hh : h ∈ (run events (empty config false)).pending) :
    ∃ p, (run events (empty config false)).state.provisions.get? h.provision = some p ∧
      h.Matches p ∧
        (after (runDeferred h) (run events (empty config false))).state.provisions.get?
          h.provision = none ∧
          Ending h p (run events (empty config false))
            (after (runDeferred h) (run events (empty config false))) := by
  have hreachable := Reachable.empty config false
  have hwaits := waits_run hreachable hvalid (waits_empty config) hserved
  have hregular := (hreachable.run hvalid).regular
  obtain ⟨p, hp, hmatches⟩ := hwaits.paired.waiting h hh
  have hgone := (dropped_after_runDeferred h (run events (empty config false))).provisions
  refine ⟨p, hp, hmatches, ?_, ending_of_waiting hregular.ledger hp⟩
  rw [hgone, Table.get?_erase, if_pos rfl]

/-! ### A deposit that is stranded

Another swap lands between the two phases, so the balances are not as the first phase expected. -/

def driftedSwap : HalfSwap := ⟨"tx-1", "o.first", ⟨"uom", 2000⟩, "uusd", some half⟩

def driftedRun : List Event :=
  [ .addPool firstPool, .fund "alice" [⟨"uom", 4000⟩], .fund "bob" [⟨"uom", 2500⟩],
    .execute "alice" [⟨"uom", 4000⟩] (.deposit { pool := "o.first", maxSpread := some half }),
    .execute "bob" [⟨"uom", 2500⟩]
      (.swap { pool := "o.first", askDenom := "uusd", maxSpread := some half }) ]

theorem valid_driftedRun : ∀ e ∈ driftedRun, e.Valid := by
  simp only [driftedRun, List.forall_mem_cons, List.not_mem_nil, false_implies, implies_true,
    and_true]
  exact ⟨.addPool (by decide), .fund (by decide), .fund (by decide), .execute (by decide),
    .execute (by decide)⟩

theorem ending_of_driftedSwap :
    ∃ p, (run driftedRun (empty {} false)).state.provisions.get? driftedSwap.provision = some p ∧
      driftedSwap.Matches p ∧
        (after (runDeferred driftedSwap) (run driftedRun (empty {} false))).state.provisions.get?
          driftedSwap.provision = none ∧
          Ending driftedSwap p (run driftedRun (empty {} false))
            (after (runDeferred driftedSwap) (run driftedRun (empty {} false))) := by
  have hserved : (empty {} false).ServedRun driftedRun := by decide +kernel
  have hwaits : driftedSwap ∈ (run driftedRun (empty {} false)).pending := by decide +kernel
  exact ending_of_served valid_driftedRun hserved hwaits

/-- Alice has neither coins nor shares, nobody has shares, and no provision records her deposit. -/
theorem stranded_driftedSwap :
    (empty {} false).ServedRun driftedRun ∧
      driftedSwap ∈ (run driftedRun (empty {} false)).pending ∧
        Action.succeeds (runDeferred driftedSwap) (run driftedRun (empty {} false)) = false ∧
          let c := after (runDeferred driftedSwap) (run driftedRun (empty {} false))
          c.state.provisions.get? "tx-1" = none ∧ c.state.ledger.balance "alice" "uom" = 0 ∧
            c.state.ledger.supply "factory/first" = 0 ∧ c.state.held "uom" = 16500 := by
  decide +kernel

end MarketMaker.Chain
