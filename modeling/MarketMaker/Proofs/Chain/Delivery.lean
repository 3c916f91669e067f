import MarketMaker.Proofs.Chain.Sound
import MarketMaker.Proofs.Lock

/-! # What a step carries out

A step that succeeds carries out the effects of one settlement, or those of a trade and of the
deposit that the trade was made for, or a refund, or none at all. -/

namespace MarketMaker.Chain

open Ledger

variable {c c₁ c' : Chain}

/-! ## Half-swaps -/

theorem carried_of_trade {h : HalfSwap} {u : Unit} (ht : trade h c = .ok u c') :
    ∃ pool sides q o, (halfSwapOrder h).Fills c.state (halfSwapCall h) h.offer pool sides q o ∧
      Carried o.settlement.effects c c' ∧
        SameBooks { c with state := c.state.savePool o.pool } c' := by
  obtain ⟨o, hrun, happly⟩ := trade_eq_ok.1 ht
  obtain ⟨offer, pool, sides, q, hfills⟩ := SwapOrder.fills_of_run hrun
  obtain rfl : h.offer = offer := List.singleton_inj.1 hfills.funds
  exact ⟨pool, sides, q, o, hfills, (carried_of_applyEffects happly).of_same rfl rfl,
    sameBooks_of_applyEffects happly⟩

/-- A trade names no position, whether it goes through or is undone. -/
theorem count_of_tryTrade {h : HalfSwap} {success : Bool} (ht : tryTrade h c = .ok success c') :
    c'.positions = c.positions := by
  have hafter : (after (trade h) c).positions = c.positions := by
    rw [after, trade_eq]
    cases hrun : (halfSwapOrder h).run (halfSwapCall h) c.state with
    | error e s => rfl
    | ok o s =>
        obtain ⟨_, _, _, _, hfills⟩ := SwapOrder.fills_of_run hrun
        exact count_after_applyEffects hfills.locks_eq _
  unfold tryTrade at ht
  split at ht
  · rename_i hok
    cases ht
    rwa [after_eq_of_ok hok] at hafter
  · rename_i herror
    cases ht
    rw [after, herror] at hafter
    exact hafter
  · cases ht

/-- What a half-swap that was run carries out for its provision. -/
inductive Finished (h : HalfSwap) (p : Provision) (c c' : Chain) : Prop
  | completed {c₁ : Chain} {pool pool' : Pool} {sides : AssetPair} {q : SwapQuote} {o o' : Outcome}
      {deposits balances : List Int} {share : Int} {issued : List Effect}
      (went : trade h { c with pending := c.pending.erase h } = .ok () c₁)
      (fills : (halfSwapOrder h).Fills c.state (halfSwapCall h) h.offer pool sides q o)
      (traded : Carried o.settlement.effects c c₁)
      (config_eq : c₁.state.config = c.state.config)
      (stored : c₁.state.registry.get? p.request.pool = some pool')
      (accepted : p.completion.Accepted (Confirmation.taken c₁.state h.provision) pool' deposits
        balances share issued o')
      (carried : Carried o'.settlement.effects c₁ c') : Finished h p c c'
  | refunded
      (failed : Action.succeeds (trade h) { c with pending := c.pending.erase h } = false)
      (carried : Carried (p.refund h.provision).effects c c')
      (registry_eq : c'.state.registry = c.state.registry) : Finished h p c c'

theorem finished_of_runHalfSwap {h : HalfSwap} {settlement : Settlement}
    (hrun : runHalfSwap h c = .ok settlement c') :
    ∃ p, c.state.provisions.get? h.provision = some p ∧ Finished h p c c' := by
  obtain ⟨success, c₁, s, htry, htaken, happly⟩ := runHalfSwap_eq_ok.1 hrun
  have hcarried := carried_of_applyEffects happly
  cases Confirmation.taken_of_run htaken with
  | completed hsuccess waiting complete =>
      dsimp only at hsuccess
      subst hsuccess
      have hwent := tryTrade_eq_ok.1 htry
      obtain ⟨pool, sides, q, o, hfills, htraded, hbooks⟩ := carried_of_trade hwent
      obtain ⟨pool', hcompleted⟩ := Provision.completed_of_complete complete
      obtain ⟨deposits, balances, share, issued, haccepted⟩ := hcompleted.deposited
      have hwaiting := hbooks.provisions ▸ waiting
      exact ⟨_, hwaiting, .completed hwent hfills (htraded.of_same rfl rfl) hbooks.config
        hcompleted.stored haccepted (hcarried.of_same rfl rfl)⟩
  | refunded hfailure waiting =>
      dsimp only at hfailure
      subst hfailure
      cases attempted_of_tryTrade htry with
      | undone failed books ledger =>
          have hcount := count_of_tryTrade htry
          have hwaiting := books.provisions ▸ waiting
          have hregistry := (sameBooks_of_applyEffects happly).registry.trans books.registry
          exact ⟨_, hwaiting, .refunded failed (hcarried.of_same ledger hcount) hregistry⟩

/-! ## Transactions -/

/-- What a transaction that succeeds carries out for an operation. -/
inductive Delivered (call : Call) (c c' : Chain) : Operation → Prop
  | settled {op : Operation} {l : Ledger} {pool : Pool} {o : Outcome}
      (paid : Ledger.transfer call.sender managerAddress call.funds c.state.ledger = .ok () l)
      (settles : op.Settles (c.funded l).state call pool o)
      (carried : Carried o.settlement.effects (c.funded l) c')
      (books : SameBooks { c with state := c.state.savePool o.pool } c') : Delivered call c c' op
  | queued {order : DepositOrder} {l : Ledger} {pool : Pool} {coin : Coin} {sides : AssetPair}
      {q : SwapQuote} {st : Provision.Start}
      (paid : Ledger.transfer call.sender managerAddress call.funds c.state.ledger = .ok () l)
      (begins : order.Begins (c.funded l).state call pool coin sides q st)
      (manual : c.autoConfirm = false)
      (eq : c' = (c.noted l call.transaction st.provision).enqueued st.swap) :
      Delivered call c c' (.deposit order)
  | finished {order : DepositOrder} {l : Ledger} {pool : Pool} {coin : Coin} {sides : AssetPair}
      {q : SwapQuote} {st : Provision.Start}
      (paid : Ledger.transfer call.sender managerAddress call.funds c.state.ledger = .ok () l)
      (begins : order.Begins (c.funded l).state call pool coin sides q st)
      (auto : c.autoConfirm = true)
      (finished : Finished st.swap st.provision (c.noted l call.transaction st.provision) c')
      (dropped : Dropped st.swap (c.noted l call.transaction st.provision) c') :
      Delivered call c c' (.deposit order)

theorem delivered_of_transact {op : Operation} {call : Call} {r : Response}
    (h : transact op call c = .ok r c') : Delivered call c c' op := by
  obtain ⟨l, s, hpaid, hrun, hmessages⟩ := transact_eq_ok.1 h
  cases Operation.ran_of_run hrun with
  | settled settles =>
      rw [applyMessages_toResponse] at hmessages
      have hbooks := sameBooks_of_applyEffects hmessages
      exact .settled hpaid settles ((carried_of_applyEffects hmessages).of_same rfl rfl)
        ⟨hbooks.config, hbooks.registry, hbooks.provisions, hbooks.autoConfirm, hbooks.pending,
          hbooks.transactions⟩
  | begun begins =>
      rename_i st
      rw [applyMessages_halfSwap] at hmessages
      split at hmessages
      · rename_i hauto
        obtain ⟨_, _, hrun, hpure⟩ := Action.bind_eq_ok.1 hmessages
        obtain ⟨-, rfl⟩ := Action.pure_eq_ok.1 hpure
        obtain ⟨p, hp, hfinished⟩ := finished_of_runHalfSwap hrun
        have hnoted : p = st.provision := Transacted.provision_noted begins hp
        exact .finished hpaid begins hauto (hnoted ▸ hfinished)
          (confirmed_of_runHalfSwap hrun).dropped
      · rename_i hmanual
        cases hmessages
        exact .queued hpaid begins (by simpa using hmanual) rfl

/-- Shares that a transaction may lock are locked for its sender. -/
theorem checkLock_of_transact {order : DepositOrder} {call : Call} {r : Response}
    (h : transact (.deposit order) call c = .ok r c') : order.checkLock call = .ok () := by
  obtain ⟨l, s, -, hrun, -⟩ := transact_eq_ok.1 h
  exact (DepositOrder.run_eq_ok_iff.1 hrun).2.1

theorem Delivered.terms {call : Call} {op : Operation} (h : Delivered call c c' op) :
    c.SameTerms c' := by
  cases h with
  | settled paid settles carried books =>
      exact ⟨books.config, books.autoConfirm, books.transactions⟩
  | queued paid begins manual eq =>
      rw [eq]
      exact ⟨rfl, rfl, rfl⟩
  | finished paid begins auto finished dropped =>
      exact ⟨dropped.terms.config, dropped.terms.autoConfirm, dropped.terms.transactions⟩

/-- A transaction delivers, or it leaves ledger and pools as they were. -/
theorem delivered_after_execute (sender : String) (funds : List Coin) (op : Operation)
    (c : Chain) :
    Delivered (c.nextCall sender funds) c.counted (after (execute sender funds op) c) op ∨
      ∃ c', Failed c.counted c' ∧ after (execute sender funds op) c = c'.rollback c.state := by
  cases hsucceeds : Action.succeeds (execute sender funds op) c with
  | true =>
      obtain ⟨r, hok⟩ := exists_ok_after hsucceeds
      exact .inl (delivered_of_transact (execute_eq_ok.1 hok))
  | false =>
      right
      obtain ⟨e, herror⟩ := exists_error_after hsucceeds
      rw [execute_eq] at herror
      obtain ⟨c', hfailed, heq⟩ := atomically_eq_error.1 herror
      exact ⟨c', failed_of_transact_error hfailed, heq⟩

/-- A half-swap that is run finishes its deposit, or it leaves ledger and pools as they were. -/
theorem finished_after_runDeferred (h : HalfSwap) (c : Chain) :
    (∃ p, c.state.provisions.get? h.provision = some p ∧
        Finished h p c (after (runDeferred h) c)) ∨
      ∃ c', Dropped h c c' ∧ after (runDeferred h) c = c'.rollback c.state := by
  rcases after_atomically (runHalfSwap h) c with ⟨settlement, c', hok, heq⟩ | ⟨⟨e, c', herror⟩, heq⟩
  · rw [runDeferred, heq]
    exact .inl (finished_of_runHalfSwap hok)
  · have hafter : after (runHalfSwap h) c = c' := by
      simp only [after, herror]
    rw [runDeferred, heq, hafter]
    exact .inr ⟨c', dropped_of_runHalfSwap_error herror, rfl⟩

/-! ## Any event -/

/-- Nothing that happens to a chain changes its settings. -/
theorem sameSettings_after (e : Event) (c : Chain) : c.SameSettings (after (perform e) c) := by
  cases e with
  | execute sender funds op =>
      rw [after_perform_execute]
      rcases delivered_after_execute sender funds op c with h | ⟨c', h, heq⟩
      · exact ⟨h.terms.config, h.terms.autoConfirm⟩
      · rw [heq]
        exact ⟨h.terms.config, h.terms.autoConfirm⟩
  | runDeferred h =>
      rw [after_perform_runDeferred]
      exact (dropped_after_runDeferred h c).terms.settings
  | fund address coins => exact (sameBooks_fund address coins c).sameTerms.settings
  | addPool pool =>
      rw [after_perform_addPool]
      exact ⟨(sameBooks_withLedger _ _).config, (sameBooks_withLedger _ _).autoConfirm⟩

/-- What an event does to the queue and to the provisions that wait: nothing, or a half-swap joins
with a provision under the name of its transaction, or a half-swap that is run leaves with its own.
-/
inductive Turn (c c' : Chain) : Event → Prop
  | kept {e : Event} (provisions : c'.state.provisions = c.state.provisions)
      (pending : c'.pending = c.pending ∨
        c.autoConfirm = true ∧ ∃ h, c'.pending = c.pending.erase h)
      (count : c.transactions ≤ c'.transactions) : Turn c c' e
  | joined {sender : String} {funds : List Coin} {op : Operation} {h : HalfSwap} {p : Provision}
      (manual : c.autoConfirm = false)
      (named : h.provision = "tx-" ++ toString (c.transactions + 1))
      (fresh : c.state.provisions.get? h.provision = none)
      (provisions : c'.state.provisions = c.state.provisions.put h.provision p)
      (pending : c'.pending = c.pending ++ [h])
      (count : c'.transactions = c.transactions + 1) : Turn c c' (.execute sender funds op)
  | left {h : HalfSwap} (provisions : c'.state.provisions = c.state.provisions.erase h.provision)
      (pending : c'.pending = c.pending.erase h)
      (count : c'.transactions = c.transactions) : Turn c c' (.runDeferred h)

theorem turn_after (e : Event) (c : Chain) : Turn c (after (perform e) c) e := by
  cases e with
  | execute sender funds op =>
      rw [after_perform_execute]
      rcases delivered_after_execute sender funds op c with h | ⟨c', h, heq⟩
      · cases h with
        | settled paid settles carried books =>
            exact .kept books.provisions (.inl books.pending)
              (books.transactions ▸ Nat.le_succ c.transactions)
        | queued paid begins manual eq =>
            rename_i order _ _ _ _ _ st
            have hid := Transacted.swap_provision begins
            have hput : (after (execute sender funds (.deposit order)) c).state.provisions =
                c.state.provisions.put st.swap.provision st.provision := by
              rw [eq, hid]
              rfl
            refine .joined manual hid ?_ hput (eq ▸ rfl) (eq ▸ rfl)
            rw [hid]
            exact begins.fresh
        | finished paid begins auto finished dropped =>
            refine .kept ?_ (.inr ⟨auto, _, dropped.pending⟩) ?_
            · rw [dropped.provisions, Transacted.swap_provision begins]
              exact Table.erase_put_of_none begins.fresh _
            · exact dropped.terms.transactions ▸ Nat.le_succ c.transactions
      · rw [heq]
        exact .kept h.provisions h.pending (h.terms.transactions ▸ Nat.le_succ c.transactions)
  | runDeferred h =>
      rw [after_perform_runDeferred]
      have hdropped := dropped_after_runDeferred h c
      exact .left hdropped.provisions hdropped.pending hdropped.terms.transactions
  | fund address coins =>
      have hbooks := sameBooks_fund address coins c
      exact .kept hbooks.provisions (.inl hbooks.pending) (Nat.le_of_eq hbooks.transactions.symm)
  | addPool pool =>
      rw [after_perform_addPool]
      have hbooks := sameBooks_withLedger (Ledger.seed managerAddress pool 0)
        { c with state := c.state.savePool pool }
      exact .kept hbooks.provisions (.inl hbooks.pending) (Nat.le_of_eq hbooks.transactions.symm)

theorem Delivered.each_provision {kind : Provision → Prop} {call : Call} {op : Operation}
    (h : Delivered call c c' op) (hp : c.state.provisions.Each kind)
    (hbegun : ∀ {order l pool coin sides q st}, op = .deposit order →
      order.Begins (c.funded l).state call pool coin sides q st → kind st.provision) :
    c'.state.provisions.Each kind := by
  cases h with
  | settled paid settles carried books =>
      rw [books.provisions]
      exact hp
  | queued paid begins manual eq =>
      rw [eq]
      exact hp.put call.transaction (hbegun rfl begins)
  | finished paid begins auto finished dropped =>
      rw [dropped.provisions]
      exact (hp.put call.transaction (hbegun rfl begins)).erase _

/-- What holds of every provision when it is made holds of all that are kept. -/
theorem each_provision_after {kind : Provision → Prop} (hp : c.state.provisions.Each kind)
    (e : Event) (hbegun : ∀ {sender funds order l pool coin sides q st},
      e = .execute sender funds (.deposit order) →
        order.Begins (c.counted.funded l).state (c.nextCall sender funds) pool coin sides q st →
          kind st.provision) : (after (perform e) c).state.provisions.Each kind := by
  cases e with
  | execute sender funds op =>
      rw [after_perform_execute]
      rcases delivered_after_execute sender funds op c with h | ⟨c', h, heq⟩
      · refine h.each_provision (c := c.counted) hp ?_
        rintro _ _ _ _ _ _ _ rfl begins
        exact hbegun rfl begins
      · rw [heq]
        exact h.provisions ▸ hp
  | runDeferred h =>
      rw [after_perform_runDeferred, (dropped_after_runDeferred h c).provisions]
      exact hp.erase _
  | fund address coins =>
      rw [(sameBooks_fund address coins c).provisions]
      exact hp
  | addPool pool =>
      rw [provisions_after_addPool]
      exact hp

end MarketMaker.Chain
